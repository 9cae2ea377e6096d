import Cs61.CheckedLoops
import Cs61.VmRangePerm

/-! # `lbits_mask` — shifts by 64

    `lbits_mask(lbits)` shifts a 64-bit word by `lbits`, which is undefined for
    64 and more; an iterator that is done has level 64.  Here the queries of
    `vmiter` and `range_perm` are run with that shift checked: `range_perm`
    does such a shift when it runs past the last address with permissions left
    (`rangePerm_shift_iff`). -/

namespace LbitsMask

open PageTable PostOrder VmIter WordMasks VmWalk VmQueries LoopRules CheckedLoops VmRanges
open VmRangePerm
open Vmiter (lbitsMask noncanonicalLbits)

/-! ## Checked iterators -/

/-- What must not happen: a fault of the page tables, or a shift by too much. -/
inductive Trap where
  | fault (f : Fault)
  /-- A shift by `lbits`, which is 64 or more. -/
  | shift (lbits : Nat)

/-- `lbits_mask(lbits)`, checked. -/
def lbitsMask? (lbits : Nat) : Except Trap Word :=
  if lbits < 64 then .ok (lbitsMask lbits) else .error (.shift lbits)

/-- `last_va()`. -/
def lastVa? (it : Vmiter) : Except Trap Word :=
  if it.lbits == noncanonicalLbits then .ok vaHighMin
  else (lbitsMask? it.lbits).map fun mask => (it.va ||| mask) + 1#64

/-- `range_size()`. -/
def rangeSize? (it : Vmiter) : Except Trap Word := (lastVa? it).map (· - it.va)

/-- `pa()`. -/
def pa? (mem : Mem) (it : Vmiter) : Except Trap Word :=
  if it.pep.read mem &&& pteP != 0#64 then
    let pa := it.pep.read mem &&& ptePAMask
    let pa := if pageOffBits < it.lbits then pa &&& ~~~(0x1000#64) else pa
    (lbitsMask? it.lbits).map fun mask => pa + (it.va &&& mask)
  else .ok (~~~(0#64))

/-- `next()`. -/
def next? (mem : Mem) (it : Vmiter) : Except Trap Vmiter :=
  let lbits :=
    if decide (pageOffBits < it.lbits) && it.perms mem == 0#64 then it.lbits else pageOffBits
  (lbitsMask? lbits).bind fun mask =>
    (it.findImpl mem ((it.va ||| mask) + 1#64) true).mapError .fault

/-- `next_range()`. -/
def nextRange? (mem : Mem) (it : Vmiter) : Except Trap Vmiter :=
  (lastVa? it).bind fun va => (it.findImpl mem va true).mapError .fault

variable {mem : Mem} {root : Word} {it : Vmiter}

theorem lbitsMask?_ok {lbits : Nat} (h : lbits < 64) : lbitsMask? lbits = .ok (lbitsMask lbits) :=
  if_pos h

theorem lastVa?_ok (h : it.lbits < 64) : lastVa? it = .ok it.lastVa := by
  rw [lastVa?, Vmiter.lastVa, lbitsMask?_ok h]
  split <;> rfl

theorem rangeSize?_ok (h : it.lbits < 64) : rangeSize? it = .ok it.rangeSize := by
  rw [rangeSize?, lastVa?_ok h]
  rfl

theorem pa?_ok (h : it.lbits < 64) : pa? mem it = .ok (it.pa mem) := by
  rw [pa?, Vmiter.pa, lbitsMask?_ok h]
  split <;> rfl

theorem nextRange?_ok {it' : Vmiter} (h : it.lbits < 64) (hnext : it.nextRange mem = .ok it') :
    nextRange? mem it = .ok it' := by
  rw [nextRange?, lastVa?_ok h]
  show (it.nextRange mem).mapError Trap.fault = _
  rw [hnext]
  rfl

theorem next?_ok {it' : Vmiter} (h : it.lbits < 64) (hnext : it.next mem = .ok it') :
    next? mem it = .ok it' := by
  have hlb : (if decide (pageOffBits < it.lbits) && it.perms mem == 0#64 then it.lbits
      else pageOffBits) < 64 := by
    split
    · exact h
    · decide
  rw [next?, lbitsMask?_ok hlb]
  show (it.next mem).mapError Trap.fault = _
  rw [hnext]
  rfl

theorem Walked.lbits_lt (h : Walked mem root it) : it.lbits < 64 :=
  Nat.lt_of_le_of_lt (VmPages.Walked.lbits_bounds h).2 (by decide)

/-! ## `range_perm` -/

/-- The loop body of `range_perm_impl`. -/
def permBody? (mem : Mem) (s : RangePerm) : Turn RangePerm (Except Trap Word) :=
  if s.p ≠ 0#64 ∧ s.sz ≠ 0#64 then
    match rangeSize? s.it with
    | .error e => .leave (.error e)
    | .ok size =>
        match nextRange? mem s.it with
        | .error e => .leave (.error e)
        | .ok it => .again {
            p := s.p &&& (if s.it.va ≠ 0#64 then s.it.perms mem else 0#64)
            sz := s.sz - minWord s.sz size
            it := it }
  else .leave (.ok s.p)

/-- `range_perm(sz)`. -/
def rangePerm? (mem : Mem) (it : Vmiter) (sz : Word) (fuel : Nat) : Option (Except Trap Word) :=
  let p := if sz = 0#64 then ~~~(0#64) else it.perms mem
  if p = 0#64 then some (.ok p)
  else
    match rangeSize? it with
    | .error e => some (.error e)
    | .ok size =>
        if sz ≤ size then some (.ok p)
        else
          match nextRange? mem it with
          | .error e => some (.error e)
          | .ok copy => run (permBody? mem) fuel { p := p, sz := sz - size, it := copy }

theorem permBody?_stop {s : RangePerm} (h : s.p = 0#64 ∨ s.sz = 0#64) :
    permBody? mem s = .leave (.ok s.p) := by
  rw [permBody?, if_neg]
  rintro ⟨hp, hsz⟩
  exact h.elim hp hsz

theorem permBody?_pass {s s' : RangePerm} (h : Pass mem root s s') :
    permBody? mem s = .again s' := by
  have hlt := Walked.lbits_lt h.walked
  rw [permBody?, if_pos ⟨h.perms, h.left⟩, rangeSize?_ok hlt, nextRange?_ok hlt h.next]
  show Turn.again _ = _
  rw [if_pos h.va, ← h.p, ← h.sz]

theorem permBody?_ended {s : RangePerm} (hit : s.it = ended root) (hp : s.p ≠ 0#64)
    (hsz : s.sz ≠ 0#64) : permBody? mem s = .leave (.error (.shift 64)) := by
  have hsize : rangeSize? s.it = .error (.shift 64) := by
    rw [hit]
    rfl
  rw [permBody?, if_pos ⟨hp, hsz⟩, hsize]

theorem returns_of_passes? {s s' : RangePerm} {r : Except Trap Word}
    (h : Relation.ReflTransGen (Pass mem root) s s')
    (hr : Returns (fun fuel => run (permBody? mem) fuel s') r) :
    Returns (fun fuel => run (permBody? mem) fuel s) r := by
  induction h using Relation.ReflTransGen.head_induction_on with
  | refl => exact hr
  | head hpass _ ih => exact returns_again (permBody?_pass hpass) ih

/-- The stretch runs past the last address, with permissions up to there. -/
def RunsOff (mem : Mem) (root : Word) (a n : Nat) : Prop :=
  2 ^ 64 < a + n ∧ andPerms mem root a (2 ^ 64 - a) ≠ 0#64

/-- What the checked `range_perm` returns. -/
theorem rangePerm?_returns (hwf : WellFormed mem root) (h : Walked mem root it) (sz : Word) :
    (RunsOff mem root it.va.toNat sz.toNat ∧ Returns (rangePerm? mem it sz) (.error (.shift 64)))
      ∨ (¬ RunsOff mem root it.va.toNat sz.toNat
          ∧ Returns (rangePerm? mem it sz) (.ok (permsUpTo mem root it.va.toNat sz.toNat))) := by
  have hlt := Walked.lbits_lt h
  -- nothing is asked
  by_cases hsz : sz = 0#64
  · refine Or.inr ⟨?_, (Returns.pure _).congr ?_⟩
    · rintro ⟨hpast, -⟩
      rw [hsz] at hpast
      exact absurd hpast (Nat.not_lt.mpr (Nat.le_of_lt it.va.isLt))
    · intro fuel
      have hne : ~~~(0#64) ≠ 0#64 := by decide
      rw [rangePerm?, hsz, if_pos rfl, if_neg hne, rangeSize?_ok hlt]
      show (if 0#64 ≤ it.rangeSize then _ else _) = _
      rw [if_pos (BitVec.le_def.mpr (Nat.zero_le _)), show (0#64).toNat = 0 from rfl,
        permsUpTo_empty]
  -- the first range is absent
  by_cases hp : it.perms mem = 0#64
  · refine Or.inr ⟨?_, (Returns.pure _).congr ?_⟩
    · rintro ⟨-, hperms⟩
      rw [andPerms_rest hwf h, hp] at hperms
      exact hperms BitVec.zero_and
    · intro fuel
      rw [rangePerm?, if_neg hsz, if_pos hp, permsUpTo_absent hwf h hp (pos_of_ne hsz), hp]
  -- the first range is enough
  by_cases hle : sz ≤ it.rangeSize
  · obtain ⟨hfits, hperms⟩ := permsUpTo_within hwf h hsz hle
    refine Or.inr ⟨fun hoff => absurd hoff.1 (Nat.not_lt.mpr hfits), (Returns.pure _).congr ?_⟩
    intro fuel
    rw [rangePerm?, if_neg hsz, if_neg hp, rangeSize?_ok hlt]
    show (if sz ≤ it.rangeSize then _ else _) = _
    rw [if_pos hle, hperms]
  -- the loop is entered, with a copy of the iterator behind the first range
  obtain ⟨copy, hnext, s', hpass, hout⟩ := rangePerm_cases hwf h hsz hle
  have hdef : ∀ fuel, rangePerm? mem it sz fuel
      = run (permBody? mem) fuel { p := it.perms mem, sz := sz - it.rangeSize, it := copy } := by
    intro fuel
    rw [rangePerm?, if_neg hsz, if_neg hp, rangeSize?_ok hlt]
    show (if sz ≤ it.rangeSize then _ else _) = _
    rw [if_neg hle, nextRange?_ok hlt hnext]
  have hones : ∀ x : Word, ~~~(0#64) &&& x = x := fun x => BitVec.allOnes_and
  -- by how the loop ends
  cases hout with
  | stopped stop perms fits =>
      rw [hones] at perms fits
      refine Or.inr ⟨?_, (returns_of_passes? hpass ?_).congr hdef⟩
      · rintro ⟨hpast, hne⟩
        exact fits.elim (fun hle => absurd hpast (Nat.not_lt.mpr hle)) hne
      · rw [← perms]
        exact returns_leave (permBody?_stop stop)
  | ended hit some left past perms =>
      rw [hones] at perms
      refine Or.inl ⟨⟨past, perms ▸ some⟩, (returns_of_passes? hpass ?_).congr hdef⟩
      exact returns_leave (permBody?_ended hit some left)

/-- The computation did not end at an undefined shift. -/
def NoShift {ρ : Type} (r : Except Trap ρ) : Prop := ∀ lbits, r ≠ .error (.shift lbits)

theorem noShift_ok {ρ : Type} (x : ρ) : NoShift (.ok x : Except Trap ρ) := by
  intro lbits h
  cases h

/-- **`range_perm`** does not shift by 64 unless it runs off the end. -/
theorem rangePerm_shift_iff (hwf : WellFormed mem root) (h : Walked mem root it) (sz : Word) :
    ∃ r, Returns (rangePerm? mem it sz) r
      ∧ (NoShift r ↔ ¬ RunsOff mem root it.va.toNat sz.toNat) := by
  rcases rangePerm?_returns hwf h sz with ⟨hoff, hret⟩ | ⟨hno, hret⟩
  · exact ⟨_, hret, fun hs => absurd rfl (hs 64), fun hno => absurd hoff hno⟩
  · exact ⟨_, hret, fun _ => hno, fun _ => noShift_ok _⟩

end LbitsMask
