import Cs61.LoopRules
import Mathlib.Data.List.Chain

/-! # Loops whose passes are checked

    A checked computation has a budget, and ends with a value or with a trap.
    As long as no check fails it runs like the computation without checks
    (`run_checked`, `collect_checked`). -/

namespace CheckedLoops

open LoopRules

variable {σ ρ τ ε : Type}

/-- A pass that was not checked. -/
def unchecked : Turn σ ρ → Turn σ (Except ε ρ)
  | .again s => .again s
  | .leave r => .leave (.ok r)

/-- `for (; cond(s); s = next(s))`, where both are checked. -/
def collect? (cond : σ → Except ε Bool) (next : σ → Option (Except ε σ)) :
    Nat → σ → Option (Except ε (List σ))
  | 0, _ => none
  | n + 1, s =>
      match cond s with
      | .error e => some (.error e)
      | .ok false => some (.ok [])
      | .ok true => andThen (next s) fun s' =>
          andThen (collect? cond next n s') fun L => some (.ok (s :: L))

/-- What has ended well is followed by the rest. -/
theorem andThen_ok {x : Option (Except ε ρ)} {a : ρ} (h : x = some (.ok a))
    (f : ρ → Option (Except ε τ)) : andThen x f = f a := by
  rw [h]
  rfl

/-- A trap is the end. -/
theorem andThen_error {x : Option (Except ε ρ)} {e : ε} (h : x = some (.error e))
    (f : ρ → Option (Except ε τ)) : andThen x f = some (.error e) := by
  rw [h]
  rfl

theorem andThen_map (x : Option ρ) (f : ρ → Option (Except ε τ)) :
    andThen (x.map .ok) f = x.bind f := by
  cases x <;> rfl

/-! ## Sequences -/

/-- One part after the other, with both budgets. -/
theorem returns_andThen {f : Nat → Nat → Option (Except ε ρ)}
    {g : Nat → Nat → ρ → Option (Except ε τ)} {a : ρ} {t : Except ε τ}
    (hf : Returns₂ f (.ok a)) (hg : Returns₂ (fun n m => g n m a) t) :
    Returns₂ (fun n m => andThen (f n m) (g n m)) t := by
  obtain ⟨n, hn⟩ := hf
  obtain ⟨k, hk⟩ := hg
  refine ⟨n + k, ?_⟩
  intro inner outer hi ho
  show andThen (f inner outer) (g inner outer) = some t
  rw [andThen_ok (hn inner outer (by omega) (by omega))]
  exact hk inner outer (by omega) (by omega)

/-- A trap in the first part, with both budgets. -/
theorem returns_andThen_error {f : Nat → Nat → Option (Except ε ρ)} {e : ε}
    (hf : Returns₂ f (.error e)) (g : Nat → Nat → ρ → Option (Except ε τ)) :
    Returns₂ (fun n m => andThen (f n m) (g n m)) (.error e) := by
  obtain ⟨n, hn⟩ := hf
  refine ⟨n, ?_⟩
  intro inner outer hi ho
  exact andThen_error (hn inner outer hi ho) _

/-- A computation without checks has no trap. -/
theorem returns_ok {f : Nat → Nat → Option ρ} {r : ρ} (h : Returns₂ f r) :
    Returns₂ (fun n m => (f n m).map (Except.ok (ε := ε))) (.ok r) := by
  obtain ⟨n, hn⟩ := h
  exact ⟨n, fun inner outer hi ho => congrArg (Option.map Except.ok) (hn inner outer hi ho)⟩

/-! ## Loops -/

/-- A loop whose checks hold. -/
theorem run_checked {body : σ → Turn σ ρ} {body? : σ → Turn σ (Except ε ρ)} (I : σ → Prop)
    (hbody : ∀ s, I s → body? s = unchecked (body s))
    (hstep : ∀ s s', I s → body s = .again s' → I s') (n : Nat) :
    ∀ s, I s → run body? n s = (run body n s).map .ok := by
  induction n with
  | zero =>
      intro s _
      rfl
  | succ n ih =>
      intro s hI
      rw [run, run, hbody s hI]
      cases hs : body s with
      | again s' => exact ih s' (hstep s s' hI hs)
      | leave r => rfl

/-- What a loop leaves with, from an invariant. -/
theorem run_invariant {body : σ → Turn σ ρ} (I : σ → Prop) (Q : ρ → Prop)
    (hstep : ∀ s s', I s → body s = .again s' → I s')
    (hleave : ∀ s r, I s → body s = .leave r → Q r) (n : Nat) :
    ∀ s r, I s → run body n s = some r → Q r := by
  induction n with
  | zero =>
      intro s r _ h
      cases h
  | succ n ih =>
      intro s r hI h
      rw [run] at h
      cases hs : body s with
      | again s' =>
          rw [hs] at h
          exact ih s' r (hstep s s' hI hs) h
      | leave r' =>
          rw [hs] at h
          obtain rfl := Option.some.inj h
          exact hleave s _ hI hs

/-- A listing loop whose checks hold. -/
theorem collect_checked {cond : σ → Bool} {cond? : σ → Except ε Bool} {next : σ → Option σ}
    {next? : σ → Option (Except ε σ)} (I : σ → Prop) (hcond : ∀ s, I s → cond? s = .ok (cond s))
    (hnext : ∀ s, I s → cond s = true → next? s = (next s).map .ok)
    (hstep : ∀ s s', I s → cond s = true → next s = some s' → I s') (n : Nat) :
    ∀ s, I s → collect? cond? next? n s = (collect cond next n s).map .ok := by
  induction n with
  | zero =>
      intro s _
      rfl
  | succ n ih =>
      intro s hI
      rw [collect?, collect, hcond s hI]
      cases hc : cond s with
      | false => rfl
      | true =>
          rw [if_pos rfl]
          show andThen (next? s) _ = _
          rw [hnext s hI hc, andThen_map]
          cases hn : next s with
          | none => rfl
          | some s' =>
              show andThen (collect? cond? next? n s') _ = ((collect cond next n s').map (s :: ·)).map .ok
              rw [ih s' (hstep s s' hI hc hn), andThen_map]
              cases collect cond next n s' <;> rfl

section Steps

variable {cond? : σ → Except ε Bool} {next? : Nat → σ → Option (Except ε σ)} {s : σ}

/-- A trap in the condition. -/
theorem returns_collect_trap {e : ε} (h : cond? s = .error e) :
    Returns₂ (fun inner outer => collect? cond? (next? inner) outer s) (.error e) := by
  refine ⟨1, ?_⟩
  intro inner outer _ ho
  obtain ⟨k, rfl⟩ : ∃ k, outer = k + 1 := ⟨outer - 1, by omega⟩
  show collect? cond? (next? inner) (k + 1) s = _
  rw [collect?, h]

/-- The end of the loop. -/
theorem returns_collect_end (h : cond? s = .ok false) :
    Returns₂ (fun inner outer => collect? cond? (next? inner) outer s) (.ok []) := by
  refine ⟨1, ?_⟩
  intro inner outer _ ho
  obtain ⟨k, rfl⟩ : ∃ k, outer = k + 1 := ⟨outer - 1, by omega⟩
  show collect? cond? (next? inner) (k + 1) s = _
  rw [collect?, h]

/-- One pass, and the rest of the loop. -/
theorem returns_collect_pass {s' : σ} {r : Except ε (List σ)} (h : cond? s = .ok true)
    (hn : Returns (fun n => next? n s) (.ok s'))
    (hr : Returns₂ (fun inner outer => collect? cond? (next? inner) outer s') r) :
    Returns₂ (fun inner outer => collect? cond? (next? inner) outer s) (r.map (s :: ·)) := by
  obtain ⟨n, hn⟩ := hn
  obtain ⟨m, hm⟩ := hr
  refine ⟨n + m + 1, ?_⟩
  intro inner outer hi ho
  obtain ⟨k, rfl⟩ : ∃ k, outer = k + 1 := ⟨outer - 1, by omega⟩
  show collect? cond? (next? inner) (k + 1) s = _
  rw [collect?, h]
  show andThen (next? inner s) _ = _
  rw [andThen_ok (hn inner (by omega))]
  have hrest : collect? cond? (next? inner) k s' = some r := hm inner k (by omega) (by omega)
  show andThen (collect? cond? (next? inner) k s') _ = _
  rw [hrest]
  cases r <;> rfl

end Steps

/-- **CHAIN RULE**: every pass from an invariant state does not trap, and where
    the loop goes on it goes to a related invariant state of smaller measure.
    Then the loop ends, and the states it lists are a chain. -/
theorem returns_collect_chain {cond : σ → Bool} {next? : Nat → σ → Option (Except ε σ)}
    (I : σ → Prop) (R : σ → σ → Prop) (μ : σ → Nat)
    (hstep : ∀ s, I s → ∃ s', Returns (fun n => next? n s) (.ok s')
      ∧ (cond s' = true → I s' ∧ R s s' ∧ μ s' < μ s)) :
    ∀ s, (cond s = true → I s) →
      ∃ L, Returns₂ (fun inner outer =>
          collect? (fun s => .ok (cond s)) (next? inner) outer s) (.ok L)
        ∧ (∀ t ∈ L, I t) ∧ L.IsChain R ∧ ∀ t ∈ L.head?, t = s := by
  intro s
  induction hμ : μ s using Nat.strongRecOn generalizing s with
  | _ m ih =>
      intro hs
      cases hc : cond s with
      | false =>
          refine ⟨[], returns_collect_end (by rw [hc]), ?_, .nil, ?_⟩
          · exact fun t ht => absurd ht List.not_mem_nil
          · exact fun t ht => (nomatch ht)
      | true =>
          obtain ⟨s', hnext, hs'⟩ := hstep s (hs hc)
          obtain ⟨L, hL, hI, hchain, hhead⟩ : ∃ L, Returns₂ (fun inner outer =>
              collect? (fun s => .ok (cond s)) (next? inner) outer s') (.ok L)
            ∧ (∀ t ∈ L, I t) ∧ L.IsChain R ∧ ∀ t ∈ L.head?, R s t := by
            cases hc' : cond s' with
            | false =>
                refine ⟨[], returns_collect_end (by rw [hc']), ?_, .nil, ?_⟩
                · exact fun t ht => absurd ht List.not_mem_nil
                · exact fun t ht => (nomatch ht)
            | true =>
                obtain ⟨hI', hR, hlt⟩ := hs' hc'
                obtain ⟨L, hL, hI, hchain, hhead⟩ := ih (μ s') (by omega) s' rfl fun _ => hI'
                refine ⟨L, hL, hI, hchain, ?_⟩
                intro t ht
                rw [hhead t ht]
                exact hR
          refine ⟨s :: L, returns_collect_pass (by rw [hc]) hnext hL, ?_, ?_, ?_⟩
          · exact List.forall_mem_cons.mpr ⟨hs hc, hI⟩
          · exact List.isChain_cons.mpr ⟨hhead, hchain⟩
          · exact fun t ht => (Option.some.inj ht).symm

end CheckedLoops
