import Cs61.Effects
import Cs61.FullPeriod

/-! # `rand` and `rand_engine`

    Both go from a 64-bit state to the next by a linear congruential step and
    return 31 bits of the new state.  A number from a range is found by
    rejection: outputs from `bound` on are thrown away.

    * `states_cycle` — all 2^64 states come before one comes back;
    * `range_uniform` — an unsigned range gets each of its values equally often;
    * `intSamples_iff` — the `int` ranges for which the bound is computed
      without overflow. -/

namespace Rand

open Effects LoopRules

/-- `unsigned`. -/
abbrev UInt := BitVec 32
/-- `unsigned long`. -/
abbrev ULong := BitVec 64

/-- `RAND_MAX`. -/
def randMax : Nat := 0x7FFFFFFF

/-- What must not happen: an assertion that fails, or behaviour that is not defined. -/
inductive Fault where
  | assertFail (expr : String)
  | signedOverflow
deriving DecidableEq

/-! ## The generators -/

/-- `rs * 6364136223846793005UL + 1`. -/
def nextSeed (rs : ULong) : ULong := rs * 6364136223846793005#64 + 1#64

/-- `(rs >> 33) & RAND_MAX`, as an `int` or `unsigned`. -/
def rawOutput (rs : ULong) : UInt := ((rs >>> 33) &&& BitVec.ofNat 64 randMax).setWidth 32

/-- `((unsigned long) seed << 32) | seed`. -/
def spread (seed : UInt) : ULong := (seed.setWidth 64 <<< 32) ||| seed.setWidth 64

/-- The globals of `rand`.  `weak` is not in the code: it says which of the next
    weak exchanges fail without a reason; the later ones do not. -/
structure Globals where
  randSeedSet : Nat
  randSeed : ULong
  weak : List Bool

/-- `srand(seed)`. -/
def srand (seed : UInt) : Act Fault Globals Unit :=
  modify fun g => { g with randSeed := spread seed, randSeedSet := 1 }

/-- `rand_seed.compare_exchange_weak(rs, next_rs)`: whether it succeeds, and `rs`
    after it. -/
def compareExchangeWeak (rs nextRs : ULong) : Act Fault Globals (Bool × ULong) := do
  let g ← get
  if g.weak.head? = some true ∨ g.randSeed ≠ rs then do
    modify fun g => { g with weak := g.weak.tail }
    pure (false, g.randSeed)
  else do
    modify fun g => { g with weak := g.weak.tail, randSeed := nextRs }
    pure (true, rs)

/-- `if (!rand_seed_set) srand(819234718U)`. -/
def seedOnce : Act Fault Globals Unit := do
  let g ← get
  if g.randSeedSet = 0 then srand 819234718#32 else pure ()

/-- `rand()`. -/
def rand : Act Fault Globals UInt := do
  seedOnce
  let g ← get
  loop (fun rs => do
    let (exchanged, rs') ← compareExchangeWeak rs (nextSeed rs)
    if exchanged = true then pure (.leave (rawOutput (nextSeed rs)))
    else pure (.again rs')) g.randSeed

/-- `rand_engine`. -/
structure RandEngine where
  seed : ULong

/-- `rand_engine::operator()()`. -/
def RandEngine.call : Act Fault RandEngine UInt := do
  modify fun e => { e with seed := nextSeed e.seed }
  let e ← get
  pure (rawOutput e.seed)

/-! ## Ranges -/

/-- What `uniform_int_distribution` does with its type `T`. -/
structure Integral (τ : Type) where
  le : τ → τ → Bool
  sub : τ → τ → Except Fault τ
  succ : τ → Except Fault τ
  leRandMax : τ → Bool
  toULong : τ → ULong
  plus : τ → ULong → τ

/-- The operations of `unsigned`. -/
def unsigned : Integral UInt where
  le a b := decide (a.toNat ≤ b.toNat)
  sub a b := .ok (a - b)
  succ a := .ok (a + 1)
  leRandMax a := decide (a.toNat ≤ randMax)
  toULong a := a.setWidth 64
  plus a x := (a.setWidth 64 + x).setWidth 32

/-- An `int` with this value, if there is one. -/
def toSigned (z : Int) : Except Fault UInt :=
  if -2 ^ 31 ≤ z ∧ z < 2 ^ 31 then .ok (BitVec.ofInt 32 z) else .error .signedOverflow

/-- The operations of `int`. -/
def signed : Integral UInt where
  le a b := decide (a.toInt ≤ b.toInt)
  sub a b := toSigned (a.toInt - b.toInt)
  succ a := toSigned (a.toInt + 1)
  leRandMax a := decide (a.toInt ≤ randMax)
  toULong a := a.signExtend 64
  plus a x := (a.signExtend 64 + x).setWidth 32

/-- `per` and `bound`. -/
def perBound {τ : Type} (T : Integral τ) (min max : τ) : Except Fault (ULong × ULong) := do
  if T.le min max = false then throw (.assertFail "min <= max")
  if T.leRandMax (← T.sub max min) = false then throw (.assertFail "max - min <= RAND_MAX")
  let amount := T.toULong (← T.succ (← T.sub max min))
  let per := (BitVec.ofNat 32 randMax + 1#32).setWidth 64 / amount
  pure (per, per * amount)

/-- What one output of the engine gives: nothing, or a value. -/
def accept {τ : Type} (T : Integral τ) (min : τ) (per bound r : ULong) : Option τ :=
  if bound ≤ r then none else some (T.plus min (r / per))

/-- `uniform_int_distribution(min, max, engine)`. -/
def uniformIntDistribution {τ σ : Type} (T : Integral τ) (min max : τ)
    (engine : Act Fault σ ULong) : Act Fault σ τ :=
  match perBound T min max with
  | .error e => fail e
  | .ok (per, bound) =>
      loop (fun _ : Unit => do
        let r ← engine
        match accept T min per bound r with
        | none => pure (.again ())
        | some v => pure (.leave v)) ()

/-- `rand_engine::operator()(min, max)`. -/
def RandEngine.between (T : Integral UInt) (min max : UInt) : Act Fault RandEngine UInt :=
  uniformIntDistribution T min max do
    let r ← RandEngine.call
    pure (r.setWidth 64)

/-- `rand(min, max)`. -/
def randBetween (min max : UInt) : Act Fault Globals UInt :=
  uniformIntDistribution signed min max do
    let r ← rand
    pure (r.signExtend 64)

/-! ## One call -/

/-- The output is the upper bits of the state. -/
theorem rawOutput_toNat (rs : ULong) : (rawOutput rs).toNat = rs.toNat / 2 ^ 33 := by
  have hlt : rs.toNat / 2 ^ 33 < 2 ^ 31 := by omega
  rw [rawOutput, BitVec.toNat_setWidth, BitVec.toNat_and, BitVec.toNat_ushiftRight,
    Nat.shiftRight_eq_div_pow]
  have hmask : (BitVec.ofNat 64 randMax).toNat = 2 ^ 31 - 1 := by decide
  rw [hmask, Nat.and_two_pow_sub_one_eq_mod, Nat.mod_eq_of_lt hlt]
  omega

/-- No output is beyond `RAND_MAX`. -/
theorem rawOutput_lt (rs : ULong) : (rawOutput rs).toNat ≤ randMax := by
  rw [rawOutput_toNat, randMax]
  omega

/-- The state that the next call of `rand` starts from. -/
def startSeed (g : Globals) : ULong := if g.randSeedSet = 0 then spread 819234718#32 else g.randSeed

/-- A call of the engine moves its seed by one step. -/
theorem engine_call (e : RandEngine) :
    Ends RandEngine.call e fun r e' => r = rawOutput (nextSeed e.seed) ∧ e'.seed = nextSeed e.seed :=
  Ends.bind (Ends.modify (Ends.bind (Ends.get (Ends.pure ⟨rfl, rfl⟩))))

/-- Without concurrent callers an exchange fails only for no reason. -/
theorem compareExchangeWeak_spec {g : Globals} {rs : ULong} (nextRs : ULong) (h : g.randSeed = rs) :
    Ends (compareExchangeWeak rs nextRs) g fun r g' =>
      (r = (true, rs) ∧ g' = { g with weak := g.weak.tail, randSeed := nextRs })
      ∨ (r = (false, rs) ∧ g' = { g with weak := g.weak.tail } ∧ g.weak ≠ []) := by
  refine Ends.bind (Ends.get ?_)
  by_cases hweak : g.weak.head? = some true
  · rw [if_pos (Or.inl hweak)]
    refine Ends.bind (Ends.modify (Ends.pure (Or.inr ⟨by rw [h], rfl, ?_⟩)))
    rintro hnil
    rw [hnil] at hweak
    cases hweak
  · rw [if_neg (not_or.mpr ⟨hweak, not_not.mpr h⟩)]
    exact Ends.bind (Ends.modify (Ends.pure (Or.inl ⟨rfl, rfl⟩)))

/-- **RAND** makes one step, however often the exchange fails. -/
theorem rand_call (g : Globals) :
    Ends rand g fun r g' => r = rawOutput (nextSeed (startSeed g))
      ∧ startSeed g' = nextSeed (startSeed g) := by
  refine Ends.bind (Ends.mono
    (Q := fun _ g' => g'.randSeedSet ≠ 0 ∧ g'.randSeed = startSeed g) ?_ ?_)
  · refine Ends.bind (Ends.get ?_)
    rw [startSeed]
    split_ifs with hset
    · exact Ends.modify ⟨Nat.one_ne_zero, rfl⟩
    · exact Ends.pure ⟨hset, rfl⟩
  rintro _ g₁ ⟨hset, hstart⟩
  refine Ends.bind (Ends.get ?_)
  rw [← hstart]
  refine Ends.loop (fun rs s => rs = g₁.randSeed ∧ s.randSeed = g₁.randSeed ∧ s.randSeedSet ≠ 0)
    (fun _ s => s.weak.length) ?_ ⟨rfl, rfl, hset⟩
  rintro _ s ⟨rfl, hseed, hset'⟩
  refine Ends.bind ((compareExchangeWeak_spec _ hseed).mono ?_)
  rintro _ s' (⟨rfl, rfl⟩ | ⟨rfl, rfl, hweak⟩)
  · refine Ends.pure (Or.inl ⟨_, rfl, rfl, ?_⟩)
    exact if_neg hset'
  · refine Ends.pure (Or.inr ⟨_, rfl, ⟨rfl, hseed, hset'⟩, ?_⟩)
    have hpos := List.length_pos_iff.mpr hweak
    show s.weak.tail.length < s.weak.length
    rw [List.length_tail]
    omega

/-! ## All states -/

/-- Calls, one after the other, and their results. -/
def calls {σ α : Type} (f : Act Fault σ α) : Nat → Act Fault σ (List α)
  | 0 => pure []
  | n + 1 => do
      let outs ← calls f n
      let r ← f
      pure (outs ++ [r])

/-- The states from `seed` on: each of the 2^64 states comes once before one
    comes back, and each output as often as another. -/
structure Cycles (seed : ULong) : Prop where
  period : Function.minimalPeriod nextSeed seed = 2 ^ 64
  visits : ∀ s, ∃! n, n < 2 ^ 64 ∧ nextSeed^[n] seed = s
  outputs : ∀ v, v ≤ randMax → ((Finset.range (2 ^ 64)).filter fun n =>
    (rawOutput (nextSeed^[n + 1] seed)).toNat = v).card = 2 ^ 33

/-- After `n` calls a generator has made `n` steps, and returned its outputs. -/
def Follows {σ : Type} (f : Act Fault σ UInt) (seedOf : σ → ULong) : Prop :=
  ∀ s n, Ends (calls f n) s fun outs s' => seedOf s' = nextSeed^[n] (seedOf s)
    ∧ outs = (List.range n).map fun k => rawOutput (nextSeed^[k + 1] (seedOf s))

/-- The seed moves by a linear congruential step. -/
theorem nextSeed_step : nextSeed = FullPeriod.step 6364136223846793005#64 1#64 := by
  funext rs
  rw [nextSeed, FullPeriod.step, BitVec.mul_comm]

/-- As many numbers have this quotient as the divisor says. -/
theorem card_filter_div {per q N : Nat} (hper : 0 < per) (h : (q + 1) * per ≤ N) :
    ((Finset.range N).filter fun r => r / per = q).card = per := by
  have hfilter : ((Finset.range N).filter fun r => r / per = q)
      = Finset.Ico (q * per) ((q + 1) * per) := by
    ext r
    rw [Finset.mem_filter, Finset.mem_range, Finset.mem_Ico, Nat.div_eq_iff hper]
    rw [Nat.succ_mul] at h ⊢
    omega
  rw [hfilter, Nat.card_Ico, Nat.succ_mul]
  omega

/-- The step goes through all states before it is back. -/
theorem cycles (seed : ULong) : Cycles seed := by
  have ha : (6364136223846793005#64).toNat % 4 = 1 := by decide
  have hc : (1#64).toNat % 2 = 1 := by decide
  refine ⟨?_, ?_, ?_⟩
  · rw [nextSeed_step]
    exact FullPeriod.minimalPeriod_eq ha hc seed
  · intro s
    rw [nextSeed_step]
    exact FullPeriod.existsUnique_visit ha hc seed s
  · intro v hv
    have hle : (v + 1) * 2 ^ 33 ≤ 2 ^ 64 := by
      rw [randMax] at hv
      omega
    have hquot := @card_filter_div (2 ^ 33) _ _ (Nat.two_pow_pos 33) hle
    have hcount := FullPeriod.card_visits ha hc (nextSeed seed) fun k => k / 2 ^ 33 = v
    rw [← nextSeed_step] at hcount
    refine Eq.trans (congrArg Finset.card (Finset.filter_congr ?_)) (hcount.trans hquot)
    intro n _
    rw [rawOutput_toNat, Function.iterate_succ_apply]

/-- Calls in a row go along the orbit of the seed. -/
theorem follows_of_call {σ : Type} {f : Act Fault σ UInt} {seedOf : σ → ULong}
    (h : ∀ s, Ends f s fun r s' => r = rawOutput (nextSeed (seedOf s))
      ∧ seedOf s' = nextSeed (seedOf s)) : Follows f seedOf := by
  intro s n
  induction n with
  | zero => exact Ends.pure ⟨rfl, rfl⟩
  | succ n ih =>
      refine Ends.bind (ih.mono ?_)
      rintro outs s₁ ⟨hs₁, rfl⟩
      refine Ends.bind ((h s₁).mono ?_)
      rintro r s₂ ⟨rfl, hs₂⟩
      refine Ends.pure ⟨?_, ?_⟩
      · rw [hs₂, hs₁, Function.iterate_succ_apply']
      · rw [List.range_succ, List.map_append, hs₁, ← Function.iterate_succ_apply' nextSeed]
        rfl

/-- **FULL PERIOD** of `rand_engine` and of `rand`. -/
theorem states_cycle : (∀ seed, Cycles seed) ∧ Follows RandEngine.call RandEngine.seed
    ∧ Follows rand startSeed :=
  ⟨cycles, follows_of_call engine_call, follows_of_call rand_call⟩

/-! ## Rejection -/

/-- An output of the generator, as the distribution gets it. -/
def output (rs : ULong) : ULong := (rawOutput rs).setWidth 64

/-- An engine that makes one step at a time. -/
def Steps {σ : Type} (engine : Act Fault σ ULong) (seedOf : σ → ULong) : Prop :=
  ∀ s, Ends engine s fun r s' => r = output (nextSeed (seedOf s)) ∧ seedOf s' = nextSeed (seedOf s)

/-- The first output from `seed` on that is accepted gives the value. -/
def FirstAccepted {τ : Type} (T : Integral τ) (min : τ) (per bound seed : ULong) (v : τ)
    (seed' : ULong) : Prop :=
  ∃ n, seed' = nextSeed^[n + 1] seed ∧ accept T min per bound (output seed') = some v
    ∧ ∀ k, k < n → accept T min per bound (output (nextSeed^[k + 1] seed)) = none

/-- Every generator comes to an output below the bound. -/
theorem exists_below {bound : ULong} (hbound : 0 < bound.toNat) (seed : ULong) :
    ∃ n, (output (nextSeed^[n + 1] seed)).toNat < bound.toNat := by
  obtain ⟨n, ⟨-, hn⟩, -⟩ := (cycles (nextSeed seed)).visits 0
  refine ⟨n, ?_⟩
  rw [Function.iterate_succ_apply, hn]
  exact hbound

/-- **REJECTION** ends, and takes the first output that is accepted. -/
theorem uniform_ends {τ σ : Type} {T : Integral τ} {min max : τ} {per bound : ULong}
    (hbound : perBound T min max = .ok (per, bound)) (hpos : 0 < bound.toNat)
    {engine : Act Fault σ ULong} {seedOf : σ → ULong} (hsteps : Steps engine seedOf) (s : σ) :
    Ends (uniformIntDistribution T min max engine) s fun v s' =>
      FirstAccepted T min per bound (seedOf s) v (seedOf s') := by
  rw [uniformIntDistribution, hbound]
  refine Ends.loop
    (fun (_ : Unit) s' => ∃ n, seedOf s' = nextSeed^[n] (seedOf s)
      ∧ ∀ k, k < n → accept T min per bound (output (nextSeed^[k + 1] (seedOf s))) = none)
    (fun _ s' => Nat.find (exists_below hpos (seedOf s'))) ?_
    ⟨0, rfl, fun k hk => absurd hk (Nat.not_lt_zero k)⟩
  rintro _ s₁ ⟨n, hseed, hrejected⟩
  refine Ends.bind ((hsteps s₁).mono ?_)
  rintro r s₂ ⟨rfl, hseed'⟩
  have hnext : nextSeed (seedOf s₁) = nextSeed^[n + 1] (seedOf s) := by
    rw [hseed, Function.iterate_succ_apply']
  cases haccept : accept T min per bound (output (nextSeed (seedOf s₁))) with
  | some v =>
      refine Ends.pure (Or.inl ⟨v, rfl, n, hseed'.trans hnext, ?_, hrejected⟩)
      rw [hseed', haccept]
  | none =>
      refine Ends.pure (Or.inr ⟨(), rfl, ⟨n + 1, hseed'.trans hnext, ?_⟩, ?_⟩)
      · intro k hk
        rcases Nat.lt_succ_iff_lt_or_eq.mp hk with hlt | rfl
        · exact hrejected k hlt
        · rw [← hnext, haccept]
      · -- the next output below the bound is one step nearer
        have hbelow := Nat.find_spec (exists_below hpos (seedOf s₁))
        have hnot : ¬ (output (nextSeed (seedOf s₁))).toNat < bound.toNat := by
          intro hlt
          rw [accept, if_neg (by rw [BitVec.le_def]; omega)] at haccept
          cases haccept
        cases hfind : Nat.find (exists_below hpos (seedOf s₁)) with
        | zero =>
            rw [hfind] at hbelow
            exact absurd hbelow hnot
        | succ j =>
            rw [hfind, Function.iterate_succ_apply, ← hseed'] at hbelow
            exact Nat.lt_succ_of_le (Nat.find_min' _ hbelow)

/-- The engine makes such steps. -/
theorem engine_steps : Steps (do let r ← RandEngine.call; pure (r.setWidth 64)) RandEngine.seed := by
  intro e
  refine Ends.bind ((engine_call e).mono ?_)
  rintro r e' ⟨rfl, hseed⟩
  exact Ends.pure ⟨rfl, hseed⟩

theorem signExtend_of_lt {x : UInt} (h : x.toNat < 2 ^ 31) : x.signExtend 64 = x.setWidth 64 := by
  rw [BitVec.signExtend, BitVec.toInt_eq_toNat_of_lt (by omega), BitVec.ofInt_natCast,
    BitVec.ofNat_toNat]

/-- `rand` makes such steps. -/
theorem rand_steps : Steps (do let r ← rand; pure (r.signExtend 64)) startSeed := by
  intro g
  refine Ends.bind ((rand_call g).mono ?_)
  rintro r g' ⟨rfl, hseed⟩
  refine Ends.pure ⟨?_, hseed⟩
  have hlt := rawOutput_lt (nextSeed (startSeed g))
  rw [randMax] at hlt
  rw [signExtend_of_lt (by omega)]
  rfl

/-! ## Bounds -/

/-- The numbers for a range of `k` values. -/
structure Bounds (k : Nat) (per bound : ULong) : Prop where
  per : per.toNat = 2 ^ 31 / k
  bound : bound.toNat = 2 ^ 31 / k * k

/-- The bound of the rejection loop is more than half of the outputs. -/
theorem bound_range {k : Nat} (hk : 0 < k) (hle : k ≤ 2 ^ 31) :
    1 ≤ 2 ^ 31 / k ∧ 2 ^ 30 < 2 ^ 31 / k * k ∧ 2 ^ 31 / k * k ≤ 2 ^ 31 := by
  have hper : 1 ≤ 2 ^ 31 / k := (Nat.one_le_div_iff hk).mpr hle
  have hmod := Nat.mod_lt (2 ^ 31) hk
  have hdiv := Nat.div_add_mod (2 ^ 31) k
  have hgrow : 1 * k ≤ 2 ^ 31 / k * k := Nat.mul_le_mul_right k hper
  rw [Nat.mul_comm k] at hdiv
  exact ⟨hper, by omega, by omega⟩

/-- The bound that the code computes, likewise. -/
theorem Bounds.range {k : Nat} {per bound : ULong} (h : Bounds k per bound) (hk : 0 < k)
    (hle : k ≤ 2 ^ 31) : 1 ≤ per.toNat ∧ 2 ^ 30 < bound.toNat ∧ bound.toNat ≤ 2 ^ 31 := by
  rw [h.per, h.bound]
  exact bound_range hk hle

/-- **BOUND** of a range whose width is computed without overflow. -/
theorem perBound_ok {τ : Type} {T : Integral τ} {min max d d' : τ} {k : Nat}
    (hle : T.le min max = true) (hsub : T.sub max min = .ok d) (hd : T.leRandMax d = true)
    (hsucc : T.succ d = .ok d') (hk : (T.toULong d').toNat = k) (hpos : 0 < k) (h31 : k ≤ 2 ^ 31) :
    ∃ per bound, perBound T min max = .ok (per, bound) ∧ Bounds k per bound := by
  have hper : ((BitVec.ofNat 32 randMax + 1#32).setWidth 64 / T.toULong d').toNat = 2 ^ 31 / k := by
    rw [BitVec.toNat_udiv, hk]
    rfl
  refine ⟨(BitVec.ofNat 32 randMax + 1#32).setWidth 64 / T.toULong d',
    (BitVec.ofNat 32 randMax + 1#32).setWidth 64 / T.toULong d' * T.toULong d', ?_, hper, ?_⟩
  · rw [perBound, hle, hsub]
    simp only [bind, Except.bind, hd, hsucc]
    rfl
  · have hbound := bound_range hpos h31
    rw [BitVec.toNat_mul, hper, hk]
    exact Nat.mod_eq_of_lt (by omega)

/-- The bounds of an unsigned range. -/
theorem perBound_unsigned {min max : UInt} (hle : min.toNat ≤ max.toNat)
    (hwidth : max.toNat - min.toNat ≤ randMax) :
    ∃ per bound, perBound unsigned min max = .ok (per, bound)
      ∧ Bounds (max.toNat - min.toNat + 1) per bound := by
  have hmax := max.isLt
  have hd : (max - min).toNat = max.toNat - min.toNat := by
    rw [BitVec.toNat_sub]
    omega
  rw [randMax] at hwidth
  refine @perBound_ok _ unsigned min max (max - min) (max - min + 1) _ ?_ rfl ?_ rfl ?_
    (Nat.succ_pos _) (by omega)
  · exact decide_eq_true hle
  · refine decide_eq_true ?_
    rw [hd]
    exact hwidth
  · show ((max - min + 1).setWidth 64).toNat = _
    rw [BitVec.toNat_setWidth, BitVec.toNat_add, hd]
    show (max.toNat - min.toNat + 1) % 2 ^ 32 % 2 ^ 64 = _
    omega

/-! ## Unsigned ranges -/

/-- Each value has `per` of the 2^31 outputs; the other outputs are rejected. -/
structure Fair (min max : UInt) (per bound : ULong) : Prop where
  lower : 2 ^ 30 < bound.toNat
  upper : bound.toNat ≤ 2 ^ 31
  share : ∀ v : UInt, min.toNat ≤ v.toNat → v.toNat ≤ max.toNat →
    ((Finset.range (2 ^ 31)).filter fun r =>
      accept unsigned min per bound (BitVec.ofNat 64 r) = some v).card = per.toNat
  others : ∀ r v, r < 2 ^ 31 → accept unsigned min per bound (BitVec.ofNat 64 r) = some v →
    min.toNat ≤ v.toNat ∧ v.toNat ≤ max.toNat

/-- What an output stands for: a quotient, if it is small enough. -/
theorem quotient_lt {k : Nat} {per bound r : ULong} (h : Bounds k per bound) (hk : 0 < k)
    (hle : k ≤ 2 ^ 31) : r.toNat < bound.toNat ↔ (r / per).toNat < k := by
  have hper := (h.range hk hle).1
  rw [BitVec.toNat_udiv, Nat.div_lt_iff_lt_mul hper, h.bound, h.per, Nat.mul_comm]

section Unsigned

variable {min max : UInt} {per bound : ULong}

/-- The outputs that stand for one value. -/
theorem accept_unsigned (hle : min.toNat ≤ max.toNat) (hwidth : max.toNat - min.toNat ≤ randMax)
    (h : Bounds (max.toNat - min.toNat + 1) per bound) (r : ULong) (v : UInt) :
    accept unsigned min per bound r = some v
      ↔ v.toNat ≤ max.toNat ∧ v.toNat = min.toNat + (r / per).toNat := by
  have hmax := max.isLt
  rw [randMax] at hwidth
  have hlt := quotient_lt (r := r) h (Nat.succ_pos _) (by omega)
  rw [accept]
  split_ifs with hrejected
  all_goals rw [BitVec.le_def] at hrejected
  · refine iff_of_false (by intro hc; cases hc) ?_
    rintro ⟨hv, hr⟩
    omega
  · have hplus : (unsigned.plus min (r / per)).toNat = min.toNat + (r / per).toNat := by
      show ((min.setWidth 64 + r / per).setWidth 32).toNat = _
      rw [BitVec.toNat_setWidth, BitVec.toNat_add, BitVec.toNat_setWidth]
      omega
    rw [Option.some_inj, ← BitVec.toNat_inj, hplus]
    omega

/-- **UNIFORM**: an unsigned range gets each value from equally many outputs, and
    the engine takes the first output that is not rejected. -/
theorem range_uniform (hle : min.toNat ≤ max.toNat) (hwidth : max.toNat - min.toNat ≤ randMax) :
    ∃ per bound, perBound unsigned min max = .ok (per, bound) ∧ Fair min max per bound
      ∧ ∀ e, Ends (RandEngine.between unsigned min max) e fun v e' =>
        FirstAccepted unsigned min per bound e.seed v e'.seed := by
  obtain ⟨per, bound, hok, h⟩ := perBound_unsigned hle hwidth
  have h31 : max.toNat - min.toNat + 1 ≤ 2 ^ 31 := by
    rw [randMax] at hwidth
    omega
  obtain ⟨hper, hlower, hupper⟩ := h.range (Nat.succ_pos _) h31
  refine ⟨per, bound, hok, ⟨hlower, hupper, ?_, ?_⟩, ?_⟩
  · intro v hmin hmax
    have hquot : (v.toNat - min.toNat + 1) * per.toNat ≤ 2 ^ 31 := by
      refine Nat.le_trans (Nat.mul_le_mul_right _ (show _ ≤ max.toNat - min.toNat + 1 by omega)) ?_
      rw [h.per, Nat.mul_comm, ← h.bound]
      exact hupper
    refine Eq.trans (congrArg Finset.card (Finset.filter_congr ?_)) (card_filter_div hper hquot)
    intro r hr
    have hr' : (BitVec.ofNat 64 r).toNat = r :=
      Nat.mod_eq_of_lt (Nat.lt_trans (Finset.mem_range.mp hr) (by decide))
    rw [accept_unsigned hle hwidth h, BitVec.toNat_udiv, hr']
    omega
  · intro r v _ hv
    obtain ⟨hmax, heq⟩ := (accept_unsigned hle hwidth h _ v).mp hv
    exact ⟨by omega, hmax⟩
  · exact fun e => uniform_ends hok (by omega) engine_steps e

end Unsigned

/-- A die. -/
theorem range_uniform_small :
    ∃ per bound, perBound unsigned 1 6 = .ok (per, bound) ∧ Fair 1 6 per bound
      ∧ ∀ e, Ends (RandEngine.between unsigned 1 6) e fun v e' =>
        FirstAccepted unsigned 1 per bound e.seed v e'.seed :=
  range_uniform (by decide) (by decide)

/-! ## Ranges of `int` -/

/-- What an `int` range needs: `per` and `bound` without overflow, a loop that
    can end, and results from the range. -/
def IntSamples (min max : UInt) : Prop :=
  ∃ per bound, perBound signed min max = .ok (per, bound) ∧ 1 ≤ per.toNat
    ∧ randMax / 2 < bound.toNat
    ∧ (∀ e, Ends (RandEngine.between signed min max) e fun v _ =>
      min.toInt ≤ v.toInt ∧ v.toInt ≤ max.toInt)
    ∧ ∀ g, Ends (randBetween min max) g fun v _ => min.toInt ≤ v.toInt ∧ v.toInt ≤ max.toInt

theorem toSigned_ok {z : Int} (h : -2 ^ 31 ≤ z) (h' : z < 2 ^ 31) :
    ∃ d, toSigned z = .ok d ∧ d.toInt = z :=
  ⟨BitVec.ofInt 32 z, if_pos ⟨h, h'⟩, BitVec.toInt_ofInt_eq_self (by decide) h h'⟩

section Signed

variable {min max : UInt} {per bound : ULong}

/-- The bounds of an `int` range. -/
theorem perBound_signed (hle : min.toInt ≤ max.toInt) (hwidth : max.toInt - min.toInt < randMax) :
    ∃ per bound, perBound signed min max = .ok (per, bound)
      ∧ Bounds (max.toInt - min.toInt + 1).toNat per bound := by
  rw [randMax] at hwidth
  obtain ⟨d, hd, hdz⟩ := toSigned_ok (z := max.toInt - min.toInt) (by omega) (by omega)
  obtain ⟨d', hd', hdz'⟩ := toSigned_ok (z := d.toInt + 1) (by omega) (by omega)
  refine perBound_ok (decide_eq_true hle) hd (decide_eq_true ?_) hd' ?_ (by omega) (by omega)
  · rw [hdz, randMax]
    omega
  · have hnat := BitVec.toInt_eq_toNat_cond d'
    have hlt := d'.isLt
    have hsmall : d'.toNat < 2 ^ 31 := by
      split_ifs at hnat <;> omega
    show (d'.signExtend 64).toNat = _
    rw [signExtend_of_lt hsmall, BitVec.toNat_setWidth]
    split_ifs at hnat <;> omega

/-- `min + x`, in `unsigned long`, is the right `int`. -/
theorem plus_signed {x : ULong} (hx : min.toInt + x.toNat < 2 ^ 31) :
    (signed.plus min x).toInt = min.toInt + x.toNat := by
  have hmin : -2 ^ 31 ≤ min.toInt := min.le_toInt
  have hnat : ((min.signExtend 64 + x).setWidth 32).toNat
      = ((min.toInt % 2 ^ 64).toNat + x.toNat) % 2 ^ 64 % 2 ^ 32 := by
    rw [BitVec.toNat_setWidth, BitVec.toNat_add, BitVec.signExtend, BitVec.toNat_ofInt]
    rfl
  show ((min.signExtend 64 + x).setWidth 32).toInt = _
  rw [BitVec.toInt_eq_toNat_cond, hnat]
  split_ifs <;> omega

/-- An accepted value is in the range. -/
theorem accept_signed (hle : min.toInt ≤ max.toInt) (hwidth : max.toInt - min.toInt < randMax)
    (h : Bounds (max.toInt - min.toInt + 1).toNat per bound) {r : ULong} {v : UInt}
    (hv : accept signed min per bound r = some v) : min.toInt ≤ v.toInt ∧ v.toInt ≤ max.toInt := by
  have hmax := max.toInt_lt
  rw [randMax] at hwidth
  have hlt := quotient_lt (r := r) h (by omega) (by omega)
  rw [accept] at hv
  split_ifs at hv with hrejected
  rw [BitVec.le_def] at hrejected
  obtain rfl := Option.some.inj hv
  rw [plus_signed (by omega)]
  omega

/-- For the widest ranges `max - min + 1` is no `int`. -/
theorem perBound_overflow (hle : min.toInt ≤ max.toInt)
    (hwidth : max.toInt - min.toInt = randMax) :
    perBound signed min max = .error .signedOverflow := by
  rw [randMax] at hwidth
  obtain ⟨d, hd, hdz⟩ := toSigned_ok (z := max.toInt - min.toInt) (by omega) (by omega)
  have hsub : signed.sub max min = .ok d := hd
  have hrand : signed.leRandMax d = true := by
    refine decide_eq_true ?_
    rw [hdz, randMax]
    omega
  have hsucc : signed.succ d = .error .signedOverflow := by
    refine if_neg ?_
    omega
  rw [perBound, show signed.le min max = true from decide_eq_true hle, hsub]
  simp only [bind, Except.bind, hrand, hsucc]
  rfl

/-- Over the widest range, the bound is 0 and no output is accepted. -/
theorem not_intSamples (hle : min.toInt ≤ max.toInt) (hwidth : max.toInt - min.toInt = randMax) :
    ¬ IntSamples min max := by
  rintro ⟨per, bound, hok, -⟩
  rw [perBound_overflow hle hwidth] at hok
  cases hok

/-- **RAND(MIN, MAX)** samples an `int` range exactly if `max - min + 1` is an
    `int` too. -/
theorem intSamples_iff (hle : min.toInt ≤ max.toInt)
    (hwidth : max.toInt - min.toInt ≤ randMax) :
    IntSamples min max ↔ max.toInt - min.toInt < randMax := by
  constructor
  · intro h
    by_contra hlt
    exact not_intSamples hle (by omega) h
  · intro hlt
    obtain ⟨per, bound, hok, h⟩ := perBound_signed hle hlt
    have hlt' := hlt
    rw [randMax] at hlt'
    obtain ⟨hper, hlower, -⟩ := h.range (by omega) (by omega)
    have hinside : ∀ {seed seed' : ULong} {v : UInt}, FirstAccepted signed min per bound seed v seed' →
        min.toInt ≤ v.toInt ∧ v.toInt ≤ max.toInt := by
      rintro seed seed' v ⟨n, -, hv, -⟩
      exact accept_signed hle hlt h hv
    refine ⟨per, bound, hok, hper, ?_, fun e => ?_, fun g => ?_⟩
    · rw [randMax]
      omega
    · exact (uniform_ends hok (by omega) engine_steps e).mono fun _ _ hv => hinside hv
    · exact (uniform_ends hok (by omega) rand_steps g).mono fun _ _ hv => hinside hv

/-- The theorem's condition for a die. -/
theorem intSamples_iff_small :
    IntSamples 1 6 ↔ (6 : UInt).toInt - (1 : UInt).toInt < randMax :=
  intSamples_iff (by decide) (by decide)

/-- `rand(0, RAND_MAX)`. -/
theorem rand_widest : ¬ ∀ min max : UInt, min.toInt ≤ max.toInt →
    max.toInt - min.toInt ≤ randMax → IntSamples min max := by
  intro h
  exact @not_intSamples 0 0x7FFFFFFF#32 (by decide) (by decide)
    (h _ _ (by decide) (by decide))

end Signed

end Rand
