import Cs61.LoopRules

/-! # Calls that change a state

    A call has a budget for its loops; it ends with a value and a new state, or
    with an error.  `Ends x s Q` is total correctness: from `s` the call `x`
    ends without an error, at every large enough budget in the same way, and
    then `Q` holds of its value and of the state.  The rules follow the text
    of a program from its start to its end. -/

namespace Effects

open LoopRules

variable {ε σ α β : Type}

/-- A call: its value and the state afterwards, or an error. -/
def Act (ε σ α : Type) : Type := Nat → σ → Option (Except ε (α × σ))

/-- Go on with what a call gives. -/
def Act.bind (x : Act ε σ α) (f : α → Act ε σ β) : Act ε σ β := fun n s =>
  match x n s with
  | none => none
  | some (.error e) => some (.error e)
  | some (.ok (a, s')) => f a n s'

instance : Monad (Act ε σ) where
  pure a := fun _ s => some (.ok (a, s))
  bind := Act.bind

/-- An error. -/
def fail (e : ε) : Act ε σ α := fun _ _ => some (.error e)

/-- A call that does not end. -/
def stuck : Act ε σ α := fun _ _ => none

/-- The state. -/
def get : Act ε σ σ := fun _ s => some (.ok (s, s))

/-- A change of the state. -/
def modify (f : σ → σ) : Act ε σ Unit := fun _ s => some (.ok ((), f s))

/-- An error unless `b`. -/
def check (b : Bool) (e : ε) : Act ε σ Unit := if b = true then pure () else fail e

/-- A loop over a local variable, for at most `k` passes. -/
def loopAt (body : α → Act ε σ (Turn α β)) (fuel : Nat) :
    Nat → α → σ → Option (Except ε (β × σ))
  | 0, _, _ => none
  | k + 1, a, s =>
      match body a fuel s with
      | none => none
      | some (.error e) => some (.error e)
      | some (.ok (.again a', s')) => loopAt body fuel k a' s'
      | some (.ok (.leave b, s')) => some (.ok (b, s'))

/-- A loop, whose passes are actions. -/
def loop (body : α → Act ε σ (Turn α β)) (a : α) : Act ε σ β := fun n s => loopAt body n n a s

/-- One call for each element of a list. -/
def each (f : α → Act ε σ Unit) : List α → Act ε σ Unit
  | [] => pure ()
  | a :: L => f a >>= fun _ => each f L

/-! ## The same call -/

/-- Equal parts make an equal whole. -/
theorem bind_congr {x x' : Act ε σ α} {f f' : α → Act ε σ β} {n : Nat} {s : σ}
    (hx : x n s = x' n s)
    (hf : ∀ a s', x' n s = some (.ok (a, s')) → f a n s' = f' a n s') :
    (x >>= f) n s = (x' >>= f') n s := by
  show Act.bind x f n s = Act.bind x' f' n s
  rw [Act.bind, Act.bind, hx]
  cases hr : x' n s with
  | none => rfl
  | some r =>
      match r, hr with
      | .error e, _ => rfl
      | .ok (a, s'), hr => exact hf a s' hr

/-- A call that has ended, and what follows it. -/
theorem bind_ok {x : Act ε σ α} {f : α → Act ε σ β} {n : Nat} {s s' : σ} {a : α}
    (hx : x n s = some (.ok (a, s'))) : (x >>= f) n s = f a n s' := by
  show Act.bind x f n s = _
  rw [Act.bind, hx]

/-- A check that has not failed was true. -/
theorem check_ok {b : Bool} {e : ε} {n : Nat} {s s' : σ} {u : Unit}
    (h : check b e n s = some (.ok (u, s'))) : b = true ∧ s' = s := by
  cases b with
  | false => cases h
  | true =>
      cases h
      exact ⟨rfl, rfl⟩

/-- Two loops whose bodies agree where the loop goes. -/
theorem loopAt_congr {body body' : α → Act ε σ (Turn α β)} (P : α → Prop)
    (hbody : ∀ a n s, P a → body a n s = body' a n s)
    (hnext : ∀ a n s a' s', P a → body' a n s = some (.ok (.again a', s')) → P a') (fuel k : Nat)
    {a : α} (s : σ) (h : P a) : loopAt body fuel k a s = loopAt body' fuel k a s := by
  induction k generalizing a s with
  | zero => rfl
  | succ k ih =>
      rw [loopAt, loopAt, hbody a fuel s h]
      cases hr : body' a fuel s with
      | none => rfl
      | some r =>
          match r, hr with
          | .error e, _ => rfl
          | .ok (.again a', s'), hr => exact ih s' (hnext a fuel s a' s' h hr)
          | .ok (.leave b, s'), _ => rfl

/-! ## Total correctness -/

/-- The action ends with every large enough budget, and `Q` holds of its result and its
    state. -/
def Ends (x : Act ε σ α) (s : σ) (Q : α → σ → Prop) : Prop :=
  ∃ n a s', (∀ fuel, n ≤ fuel → x fuel s = some (.ok (a, s'))) ∧ Q a s'

variable {s : σ} {x : Act ε σ α} {Q : α → σ → Prop}

/-- The end says less. -/
theorem Ends.mono {R : α → σ → Prop} (h : Ends x s Q) (hQ : ∀ a s', Q a s' → R a s') :
    Ends x s R := by
  obtain ⟨n, a, s', hx, hq⟩ := h
  exact ⟨n, a, s', hx, hQ a s' hq⟩

/-- A call that ends does so in one way. -/
theorem Ends.both {R : α → σ → Prop} (h : Ends x s Q) (h' : Ends x s R) :
    Ends x s fun a s' => Q a s' ∧ R a s' := by
  obtain ⟨n, a, s', hx, hq⟩ := h
  obtain ⟨n', a', s'', hx', hr⟩ := h'
  have heq := (hx (n + n') (by omega)).symm.trans (hx' (n + n') (by omega))
  obtain ⟨rfl, rfl⟩ := Prod.mk.inj (Except.ok.inj (Option.some.inj heq))
  exact ⟨n, a, s', hx, hq, hr⟩

theorem Ends.congr {y : Act ε σ α} (hxy : ∀ n, x n s = y n s) (h : Ends y s Q) : Ends x s Q := by
  obtain ⟨n, a, s', hy, hq⟩ := h
  exact ⟨n, a, s', fun fuel hfuel => (hxy fuel).trans (hy fuel hfuel), hq⟩

theorem Ends.pure {a : α} (h : Q a s) : Ends (Pure.pure a : Act ε σ α) s Q :=
  ⟨0, a, s, fun _ _ => rfl, h⟩

theorem Ends.get {Q : σ → σ → Prop} (h : Q s s) : Ends (Effects.get : Act ε σ σ) s Q :=
  ⟨0, s, s, fun _ _ => rfl, h⟩

theorem Ends.modify {f : σ → σ} {Q : Unit → σ → Prop} (h : Q () (f s)) :
    Ends (Effects.modify f : Act ε σ Unit) s Q :=
  ⟨0, (), f s, fun _ _ => rfl, h⟩

/-- A check that is true. -/
theorem Ends.check {b : Bool} {e : ε} {Q : Unit → σ → Prop} (hb : b = true) (h : Q () s) :
    Ends (Effects.check b e : Act ε σ Unit) s Q := by
  rw [Effects.check, if_pos hb]
  exact Ends.pure h

/-- One action after the other. -/
theorem Ends.bind {f : α → Act ε σ β} {Q : β → σ → Prop}
    (h : Ends x s fun a s' => Ends (f a) s' Q) : Ends (x >>= f) s Q := by
  obtain ⟨n, a, s', hx, m, b, s'', hf, hq⟩ := h
  refine ⟨n + m, b, s'', ?_, hq⟩
  intro fuel hfuel
  show Act.bind x f fuel s = _
  rw [Act.bind, hx fuel (by omega)]
  exact hf fuel (by omega)

/-- **LOOP RULE**: a pass from an invariant state leaves with what is wanted,
    or goes to an invariant state of smaller measure. -/
theorem Ends.loop {body : α → Act ε σ (Turn α β)} {Q : β → σ → Prop} (I : α → σ → Prop)
    (μ : α → σ → Nat)
    (hstep : ∀ a s, I a s → Ends (body a) s fun t s' =>
      (∃ b, t = .leave b ∧ Q b s') ∨ (∃ a', t = .again a' ∧ I a' s' ∧ μ a' s' < μ a s))
    {a : α} (h : I a s) : Ends (Effects.loop body a) s Q := by
  have hrun : ∀ m a s, μ a s = m → I a s → ∃ n b s',
      (∀ fuel, n ≤ fuel → ∀ k, m < k → loopAt body fuel k a s = some (.ok (b, s'))) ∧ Q b s' := by
    intro m
    induction m using Nat.strongRecOn with
    | _ m ih =>
        intro a s hm hI
        obtain ⟨n, t, s', hbody, ⟨b, rfl, hq⟩ | ⟨a', rfl, hI', hlt⟩⟩ := hstep a s hI
        · refine ⟨n, b, s', ?_, hq⟩
          intro fuel hfuel k hk
          obtain ⟨j, rfl⟩ : ∃ j, k = j + 1 := ⟨k - 1, by omega⟩
          rw [loopAt, hbody fuel hfuel]
        · obtain ⟨n', b, s'', hloop, hq⟩ := ih (μ a' s') (by omega) a' s' rfl hI'
          refine ⟨n + n', b, s'', ?_, hq⟩
          intro fuel hfuel k hk
          obtain ⟨j, rfl⟩ : ∃ j, k = j + 1 := ⟨k - 1, by omega⟩
          rw [loopAt, hbody fuel (by omega)]
          exact hloop fuel (by omega) j (by omega)
  obtain ⟨n, b, s', hloop, hq⟩ := hrun (μ a s) a s rfl h
  refine ⟨n + μ a s + 1, b, s', ?_, hq⟩
  intro fuel hfuel
  exact hloop fuel (by omega) fuel (by omega)

/-- A call for each element, with an invariant that knows what is still to come. -/
theorem Ends.each {f : α → Act ε σ Unit} (I : List α → σ → Prop)
    (hstep : ∀ a L s, I (a :: L) s → Ends (f a) s fun _ s' => I L s') {L : List α} {s : σ}
    (h : I L s) : Ends (Effects.each f L) s fun _ s' => I [] s' := by
  induction L generalizing s with
  | nil => exact Ends.pure h
  | cons a L ih => exact Ends.bind ((hstep a L s h).mono fun _ _ hs => ih hs)

end Effects
