import Mathlib.Order.Basic
import Mathlib.Data.List.Basic

/-! # Loops with a budget — termination as "enough fuel returns"

    A `while` or `for` loop is run by a pass budget.  Running out of budget is
    `none`, never a result, so a loop that does not end has no result at any
    budget.  `Returns f r` says that `f` gives `r` at every large enough
    budget: the loop ends, and with `r`.

    * `run` — a loop whose body goes round again or leaves with a value;
    * `collect` — a `for` loop, listing the states its body sees;
    * `run_measure` — invariant, measure and exit condition give termination
      and the exit condition together. -/

namespace LoopRules

variable {σ ρ τ : Type}

/-- What one pass of a loop body does. -/
inductive Turn (σ ρ : Type) where
  | again (s : σ)
  | leave (r : ρ)

/-- The same pass on other states, and with other results. -/
def Turn.map (f : σ → σ) (g : ρ → ρ) : Turn σ ρ → Turn σ ρ
  | .again s => .again (f s)
  | .leave r => .leave (g r)

/-- Run a loop body for at most `n` passes. -/
def run (body : σ → Turn σ ρ) : Nat → σ → Option ρ
  | 0, _ => none
  | n + 1, s =>
      match body s with
      | .again s' => run body n s'
      | .leave r => some r

/-- `for (; cond(s); s = next(s))`: the states for which the body runs. -/
def collect (cond : σ → Bool) (next : σ → Option σ) : Nat → σ → Option (List σ)
  | 0, _ => none
  | n + 1, s =>
      if cond s = true then
        match next s with
        | none => none
        | some s' => (collect cond next n s').map (s :: ·)
      else some []

/-- The same loop, and the state in which it ends. -/
def forLoop (cond : σ → Bool) (next : σ → Option σ) : Nat → σ → Option σ
  | 0, _ => none
  | n + 1, s => if cond s = true then (next s).bind (forLoop cond next n) else some s

/-- A budgeted computation returns `r` as soon as the budget is large enough. -/
def Returns (f : Nat → Option ρ) (r : ρ) : Prop :=
  ∃ n, ∀ fuel, n ≤ fuel → f fuel = some r

/-- The same for a computation with two budgets, one for an inner loop. -/
def Returns₂ (f : Nat → Nat → Option ρ) (r : ρ) : Prop :=
  ∃ n, ∀ inner outer, n ≤ inner → n ≤ outer → f inner outer = some r

/-! ## `Returns` as a calculus -/

theorem Returns.unique {f : Nat → Option ρ} {r r' : ρ}
    (h : Returns f r) (h' : Returns f r') : r = r' := by
  obtain ⟨n, hn⟩ := h
  obtain ⟨n', hn'⟩ := h'
  have h1 := hn (n + n') (by omega)
  have h2 := hn' (n + n') (by omega)
  exact Option.some.inj (h1.symm.trans h2)

theorem Returns.pure (r : ρ) : Returns (fun _ => some r) r :=
  ⟨0, fun _ _ => rfl⟩

theorem Returns.congr {f g : Nat → Option ρ} {r : ρ}
    (hfg : ∀ fuel, f fuel = g fuel) (h : Returns g r) : Returns f r := by
  obtain ⟨n, hn⟩ := h
  exact ⟨n, fun fuel hf => (hfg fuel).trans (hn fuel hf)⟩

theorem Returns.bind {f : Nat → Option ρ} {g : Nat → ρ → Option τ} {r : ρ} {t : τ}
    (hf : Returns f r) (hg : Returns (fun n => g n r) t) :
    Returns (fun n => (f n).bind (g n)) t := by
  obtain ⟨n, hn⟩ := hf
  obtain ⟨m, hm⟩ := hg
  refine ⟨n + m, ?_⟩
  intro fuel hfuel
  show (f fuel).bind (g fuel) = some t
  rw [hn fuel (by omega)]
  exact hm fuel (by omega)

theorem Returns.map {f : Nat → Option ρ} {r : ρ} (g : ρ → τ) (hf : Returns f r) :
    Returns (fun n => (f n).map g) (g r) := by
  obtain ⟨n, hn⟩ := hf
  exact ⟨n, fun fuel hfuel => congrArg (Option.map g) (hn fuel hfuel)⟩

/-- A checked part of a program, and what follows unless it has ended there. -/
def andThen {ε α β : Type} (x : Option (Except ε α)) (f : α → Option (Except ε β)) :
    Option (Except ε β) :=
  x.bind fun r => match r with
    | .error e => some (.error e)
    | .ok a => f a

section AndThen

variable {ε α β : Type}

/-- A part that ends well is followed by the rest. -/
theorem andThen_returns {x : Nat → Option (Except ε α)} {f : Nat → α → Option (Except ε β)} {a : α}
    {r : Except ε β} (hx : Returns x (.ok a)) (hf : Returns (fun n => f n a) r) :
    Returns (fun n => andThen (x n) (f n)) r :=
  hx.bind hf

/-- An error ends the whole. -/
theorem andThen_returns_error {x : Nat → Option (Except ε α)} {f : Nat → α → Option (Except ε β)}
    {e : ε} (hx : Returns x (.error e)) : Returns (fun n => andThen (x n) (f n)) (.error e) :=
  hx.bind (Returns.pure (Except.error e))

/-- A larger budget for both parts. -/
theorem andThen_mono {x x' : Option (Except ε α)} {f f' : α → Option (Except ε β)}
    {r : Except ε β} (hx : ∀ r, x = some r → x' = some r)
    (hf : ∀ a r, f a = some r → f' a = some r) (h : andThen x f = some r) :
    andThen x' f' = some r := by
  obtain ⟨a, ha, hr⟩ := Option.bind_eq_some_iff.mp h
  rw [andThen, hx a ha]
  cases a with
  | error e => exact hr
  | ok a => exact hf a r hr

/-- Both parts of what ends well have ended well. -/
theorem andThen_inv {x : Option (Except ε α)} {f : α → Option (Except ε β)} {r : β}
    (h : andThen x f = some (.ok r)) : ∃ a, x = some (.ok a) ∧ f a = some (.ok r) := by
  obtain ⟨a, ha, hf⟩ := Option.bind_eq_some_iff.mp h
  cases a with
  | error e => cases hf
  | ok a => exact ⟨a, ha, hf⟩

end AndThen

theorem Returns₂.pure (r : ρ) : Returns₂ (fun _ _ => some r) r :=
  ⟨0, fun _ _ _ _ => rfl⟩

theorem Returns₂.bind {f : Nat → Nat → Option ρ} {g : Nat → Nat → ρ → Option τ} {r : ρ} {t : τ}
    (hf : Returns₂ f r) (hg : Returns₂ (fun n m => g n m r) t) :
    Returns₂ (fun n m => (f n m).bind (g n m)) t := by
  obtain ⟨n, hn⟩ := hf
  obtain ⟨k, hk⟩ := hg
  refine ⟨n + k, ?_⟩
  intro inner outer hi ho
  show (f inner outer).bind (g inner outer) = some t
  rw [hn inner outer (by omega) (by omega)]
  exact hk inner outer (by omega) (by omega)

theorem Returns₂.congr {f g : Nat → Nat → Option ρ} {r : ρ}
    (hfg : ∀ n m, f n m = g n m) (h : Returns₂ g r) : Returns₂ f r := by
  obtain ⟨n, hn⟩ := h
  exact ⟨n, fun inner outer hi ho => (hfg inner outer).trans (hn inner outer hi ho)⟩

/-- A loop that has no inner loop. -/
theorem Returns.outer {f : Nat → Option ρ} {r : ρ} (h : Returns f r) :
    Returns₂ (fun _ outer => f outer) r := by
  obtain ⟨n, hn⟩ := h
  exact ⟨n, fun _ outer _ ho => hn outer ho⟩

/-- A loop that runs inside another one. -/
theorem Returns.inner {f : Nat → Option ρ} {r : ρ} (h : Returns f r) :
    Returns₂ (fun inner _ => f inner) r := by
  obtain ⟨n, hn⟩ := h
  exact ⟨n, fun inner _ hi _ => hn inner hi⟩

/-- One loop for each element of a list. -/
theorem Returns.mapM {α β : Type} {f : Nat → α → Option ρ} {g : β → ρ} {L : List α} {M : List β}
    (h : List.Forall₂ (fun b a => Returns (fun n => f n a) (g b)) M L) :
    Returns (fun n => L.mapM (f n)) (M.map g) := by
  induction h with
  | nil => exact Returns.pure []
  | @cons b a M L ha _ ih =>
      refine (ha.bind (g := fun n r => (L.mapM (f n)).map (r :: ·)) (ih.map (g b :: ·))).congr ?_
      intro fuel
      rw [List.mapM_cons]
      cases f fuel a with
      | none => rfl
      | some b => cases L.mapM (f fuel) <;> rfl

/-- Both budgets may be the same one. -/
theorem Returns₂.diag {f : Nat → Nat → Option ρ} {r : ρ} (h : Returns₂ f r) :
    Returns (fun n => f n n) r := by
  obtain ⟨n, hn⟩ := h
  exact ⟨n, fun fuel hf => hn fuel fuel hf hf⟩

/-! ## Loop bodies -/

theorem run_leave {body : σ → Turn σ ρ} {s : σ} {r : ρ} (h : body s = .leave r) (n : Nat) :
    run body (n + 1) s = some r := by
  rw [run, h]

theorem run_again {body : σ → Turn σ ρ} {s s' : σ} (h : body s = .again s') (n : Nat) :
    run body (n + 1) s = run body n s' := by
  rw [run, h]

theorem returns_leave {body : σ → Turn σ ρ} {s : σ} {r : ρ} (h : body s = .leave r) :
    Returns (fun n => run body n s) r := by
  refine ⟨1, ?_⟩
  intro fuel hf
  obtain ⟨k, rfl⟩ : ∃ k, fuel = k + 1 := ⟨fuel - 1, by omega⟩
  exact run_leave h k

theorem returns_again {body : σ → Turn σ ρ} {s s' : σ} {r : ρ} (h : body s = .again s')
    (hr : Returns (fun n => run body n s') r) : Returns (fun n => run body n s) r := by
  obtain ⟨m, hm⟩ := hr
  refine ⟨m + 1, ?_⟩
  intro fuel hf
  obtain ⟨k, rfl⟩ : ∃ k, fuel = k + 1 := ⟨fuel - 1, by omega⟩
  show run body (k + 1) s = some r
  rw [run_again h]
  exact hm k (by omega)

/-- What is left of a loop after a pass. -/
theorem returns_rest {body : σ → Turn σ ρ} {s s' : σ} {r : ρ} (h : body s = .again s')
    (hr : Returns (fun n => run body n s) r) : Returns (fun n => run body n s') r := by
  obtain ⟨m, hm⟩ := hr
  refine ⟨m, ?_⟩
  intro fuel hf
  have hrun : run body (fuel + 1) s = some r := hm (fuel + 1) (by omega)
  rw [run_again h] at hrun
  exact hrun

/-- A loop whose passes do the same on other states. -/
theorem run_map {body : σ → Turn σ ρ} {f : σ → σ} {g : ρ → ρ}
    (h : ∀ s, body (f s) = (body s).map f g) (n : Nat) (s : σ) :
    run body n (f s) = (run body n s).map g := by
  induction n generalizing s with
  | zero => rfl
  | succ n ih =>
      rw [run, run, h s]
      cases body s with
      | again s' => exact ih s'
      | leave r => rfl

/-- A loop that has ended is not changed by a larger budget. -/
theorem run_mono {body : σ → Turn σ ρ} {s : σ} {r : ρ} {n m : Nat} (h : run body n s = some r)
    (hm : n ≤ m) : run body m s = some r := by
  induction n generalizing s m with
  | zero => cases h
  | succ n ih =>
      obtain ⟨m, rfl⟩ : ∃ k, m = k + 1 := ⟨m - 1, by omega⟩
      rw [run] at h ⊢
      cases hbody : body s with
      | again s' =>
          rw [hbody] at h
          exact ih h (Nat.le_of_succ_le_succ hm)
      | leave r' =>
          rw [hbody] at h
          exact h

theorem returns_of_run {body : σ → Turn σ ρ} {s : σ} {r : ρ} {n : Nat}
    (h : run body n s = some r) : Returns (fun k => run body k s) r :=
  ⟨n, fun _ hm => run_mono h hm⟩

/-- A loop whose passes are known one by one. -/
theorem returns_upto {body : σ → Turn σ ρ} {r : ρ} (s : Nat → σ) {n : Nat}
    (hstep : ∀ i, i < n → body (s i) = .again (s (i + 1))) (hlast : body (s n) = .leave r) :
    Returns (fun k => run body k (s 0)) r := by
  induction n generalizing s with
  | zero => exact returns_leave hlast
  | succ n ih =>
      refine returns_again (hstep 0 (Nat.succ_pos n)) (ih (fun i => s (i + 1)) ?_ hlast)
      exact fun i hi => hstep (i + 1) (Nat.succ_lt_succ hi)

/-- **MEASURE RULE**: every pass from an invariant state either leaves with an
    acceptable value or goes to an invariant state of smaller measure. -/
theorem run_measure {body : σ → Turn σ ρ} (I : σ → Prop) (μ : σ → Nat) (Q : σ → ρ → Prop)
    (hstep : ∀ s, I s →
      (∃ r, body s = .leave r ∧ Q s r) ∨
      (∃ s', body s = .again s' ∧ I s' ∧ μ s' < μ s ∧ ∀ r, Q s' r → Q s r)) :
    ∀ s, I s → ∃ r, Q s r ∧ ∀ fuel, μ s < fuel → run body fuel s = some r := by
  intro s
  induction hμ : μ s using Nat.strongRecOn generalizing s with
  | _ m ih =>
      intro hI
      rcases hstep s hI with ⟨r, hbody, hQ⟩ | ⟨s', hbody, hI', hlt, hQ⟩
      · refine ⟨r, hQ, ?_⟩
        intro fuel hf
        obtain ⟨k, rfl⟩ : ∃ k, fuel = k + 1 := ⟨fuel - 1, by omega⟩
        exact run_leave hbody k
      · obtain ⟨r, hr, hrun⟩ := ih (μ s') (by omega) s' rfl hI'
        refine ⟨r, hQ r hr, ?_⟩
        intro fuel hf
        obtain ⟨k, rfl⟩ : ∃ k, fuel = k + 1 := ⟨fuel - 1, by omega⟩
        rw [run_again hbody]
        exact hrun k (by omega)

/-! ## Listing loops -/

theorem collect_stop {cond : σ → Bool} {next : σ → Option σ} {s : σ}
    (h : cond s = false) (n : Nat) : collect cond next (n + 1) s = some [] := by
  rw [collect, if_neg (by rw [h]; exact Bool.false_ne_true)]

theorem collect_step {cond : σ → Bool} {next : σ → Option σ} {s s' : σ}
    (h : cond s = true) (hn : next s = some s') (n : Nat) :
    collect cond next (n + 1) s = (collect cond next n s').map (s :: ·) := by
  rw [collect, if_pos h, hn]

/-- When a condition, once false, stays false, the loop sees what satisfies it. -/
theorem takeWhile_eq_filter {p : σ → Bool} {L : List σ}
    (h : L.Pairwise (fun s t => p t = true → p s = true)) : L.takeWhile p = L.filter p := by
  induction L with
  | nil => rfl
  | cons s L ih =>
      obtain ⟨hs, hL⟩ := List.pairwise_cons.mp h
      by_cases hp : p s = true
      · rw [List.takeWhile_cons_of_pos hp, List.filter_cons_of_pos hp, ih hL]
      · rw [List.takeWhile_cons_of_neg hp, List.filter_cons_of_neg hp, eq_comm,
          List.filter_eq_nil_iff]
        exact fun t ht hpt => hp (hs t ht hpt)

theorem returns_stop {cond : σ → Bool} {next : σ → Option σ} {s : σ} (h : cond s = false) :
    Returns (fun n => collect cond next n s) [] := by
  refine ⟨1, ?_⟩
  intro fuel hf
  obtain ⟨k, rfl⟩ : ∃ k, fuel = k + 1 := ⟨fuel - 1, by omega⟩
  exact collect_stop h k

theorem returns_step {cond : σ → Bool} {next : σ → Option σ} {s s' : σ} {L : List σ}
    (h : cond s = true) (hn : next s = some s')
    (hL : Returns (fun n => collect cond next n s') L) :
    Returns (fun n => collect cond next n s) (s :: L) := by
  obtain ⟨m, hm⟩ := hL
  refine ⟨m + 1, ?_⟩
  intro fuel hf
  obtain ⟨k, rfl⟩ : ∃ k, fuel = k + 1 := ⟨fuel - 1, by omega⟩
  show collect cond next (k + 1) s = some (s :: L)
  rw [collect_step h hn]
  exact congrArg (Option.map (s :: ·)) (hm k (by omega))

theorem returns_collect_stop {cond : σ → Bool} {next : Nat → σ → Option σ} {s : σ}
    (h : cond s = false) :
    Returns₂ (fun inner outer => collect cond (next inner) outer s) [] := by
  refine ⟨1, ?_⟩
  intro inner outer _ ho
  obtain ⟨k, rfl⟩ : ∃ k, outer = k + 1 := ⟨outer - 1, by omega⟩
  exact collect_stop h k

theorem returns_collect_step {cond : σ → Bool} {next : Nat → σ → Option σ} {s s' : σ}
    {L : List σ} (h : cond s = true) (hn : Returns (fun n => next n s) s')
    (hL : Returns₂ (fun inner outer => collect cond (next inner) outer s') L) :
    Returns₂ (fun inner outer => collect cond (next inner) outer s) (s :: L) := by
  obtain ⟨n, hn⟩ := hn
  obtain ⟨m, hm⟩ := hL
  refine ⟨n + m + 1, ?_⟩
  intro inner outer hi ho
  obtain ⟨k, rfl⟩ : ∃ k, outer = k + 1 := ⟨outer - 1, by omega⟩
  show collect cond (next inner) (k + 1) s = some (s :: L)
  rw [collect_step h (hn inner (by omega))]
  exact congrArg (Option.map (s :: ·)) (hm inner k (by omega) (by omega))

/-- **COUNTING RULE**: a loop that makes `n` passes, with an invariant that
    counts them. -/
theorem returns_forLoop {cond : σ → Bool} {next : Nat → σ → Option σ} (I : Nat → σ → Prop) {n : Nat}
    (hpass : ∀ k s, k < n → I k s →
      cond s = true ∧ ∃ s', Returns (fun m => next m s) s' ∧ I (k + 1) s')
    (hstop : ∀ s, I n s → cond s = false) {k : Nat} {s : σ} (hk : k ≤ n) (hI : I k s) :
    ∃ s', Returns₂ (fun inner outer => forLoop cond (next inner) outer s) s' ∧ I n s' := by
  induction hj : n - k generalizing k s with
  | zero =>
      obtain rfl : k = n := by omega
      refine ⟨s, ⟨1, fun inner outer _ ho => ?_⟩, hI⟩
      obtain ⟨m, rfl⟩ : ∃ m, outer = m + 1 := ⟨outer - 1, by omega⟩
      show forLoop cond (next inner) (m + 1) s = some s
      rw [forLoop, if_neg (by rw [hstop s hI]; exact Bool.false_ne_true)]
  | succ j ih =>
      obtain ⟨hcond, s₁, ⟨b, hb⟩, hI₁⟩ := hpass k s (by omega) hI
      obtain ⟨s', ⟨c, hc⟩, hI'⟩ := ih (k := k + 1) (by omega) hI₁ (by omega)
      refine ⟨s', ⟨b + c + 1, fun inner outer hi ho => ?_⟩, hI'⟩
      obtain ⟨m, rfl⟩ : ∃ m, outer = m + 1 := ⟨outer - 1, by omega⟩
      have hnext : next inner s = some s₁ := hb inner (by omega)
      show forLoop cond (next inner) (m + 1) s = some s'
      rw [forLoop, if_pos hcond, hnext]
      exact hc inner m (by omega) (by omega)

end LoopRules
