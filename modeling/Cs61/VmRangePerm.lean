import Mathlib.Logic.Relation
import Cs61.VmFind
import Cs61.VmPages

/-! # `range_perm` — permissions of a stretch of addresses

    `range_perm` goes over a stretch of addresses range by range.  It is the
    intersection of the permissions of all its addresses, and 0 when the
    stretch does not end in the address space (`rangePerm_eq`). -/

namespace VmRangePerm

open PageTable VmIter VmWalk LoopRules VmRanges VmRuns VmFind

variable {mem : Mem} {root : Word}

/-- `min(a, b)`. -/
def minWord (a b : Word) : Word := if a < b then a else b

/-- The variables of `range_perm_impl`. -/
structure RangePerm where
  p : Word
  sz : Word
  it : Vmiter

/-- The loop body of `range_perm_impl`. -/
def permBody (mem : Mem) (s : RangePerm) : Turn RangePerm (Except Fault Word) :=
  if s.p ≠ 0#64 ∧ s.sz ≠ 0#64 then
    match s.it.nextRange mem with
    | .error e => .leave (.error e)
    | .ok it => .again {
        p := s.p &&& (if s.it.va ≠ 0#64 then s.it.perms mem else 0#64)
        sz := s.sz - minWord s.sz s.it.rangeSize
        it := it }
  else .leave (.ok s.p)

/-- `range_perm(sz)`. -/
def rangePerm (mem : Mem) (it : Vmiter) (sz : Word) (fuel : Nat) : Option (Except Fault Word) :=
  let p := if sz = 0#64 then ~~~(0#64) else it.perms mem
  if p = 0#64 ∨ sz ≤ it.rangeSize then some (.ok p)
  else
    match it.nextRange mem with
    | .error e => some (.error e)
    | .ok copy => run (permBody mem) fuel { p := p, sz := sz - it.rangeSize, it := copy }

/-! ## What it stands for -/

/-- `vmiter(pt, a).perm()`. -/
def permAt (mem : Mem) (root a : Word) : Word :=
  match Vmiter.new mem root a with
  | .error _ => 0#64
  | .ok it => it.perms mem

/-- The bitwise AND of the permissions at `n` addresses from `a` on. -/
def andPerms (mem : Mem) (root : Word) (a : Nat) : Nat → Word
  | 0 => ~~~(0#64)
  | n + 1 => andPerms mem root a n &&& permAt mem root (BitVec.ofNat 64 (a + n))

/-- The same, and 0 when the addresses run past 2^64. -/
def permsUpTo (mem : Mem) (root : Word) (a n : Nat) : Word :=
  if 2 ^ 64 < a + n then 0#64 else andPerms mem root a n

/-- The permissions of an address are those a new iterator finds. -/
theorem permAt_eq (hwf : WellFormed mem root) (a : Word) :
    permAt mem root a = (fresh mem root a).perms mem := by
  rw [permAt, new_ok hwf.aligned hwf.low]

/-- The permissions of a range, in two parts. -/
theorem andPerms_add (a m n : Nat) :
    andPerms mem root a (m + n) = andPerms mem root a m &&& andPerms mem root (a + m) n := by
  induction n with
  | zero =>
      rw [andPerms, Nat.add_zero]
      exact (BitVec.and_allOnes).symm
  | succ n ih => rw [← Nat.add_assoc, andPerms, andPerms, ih, Nat.add_assoc, BitVec.and_assoc]

/-- Where all permissions are the same, so is their intersection. -/
theorem andPerms_const {a n : Nat} {q : Word} (hn : 0 < n)
    (h : ∀ i, i < n → permAt mem root (BitVec.ofNat 64 (a + i)) = q) :
    andPerms mem root a n = q := by
  induction n with
  | zero => cases hn
  | succ n ih =>
      rw [andPerms, h n (Nat.lt_succ_self n)]
      rcases Nat.eq_zero_or_pos n with rfl | hpos
      · rw [andPerms]
        exact BitVec.allOnes_and
      · rw [ih hpos fun i hi => h i (Nat.lt_succ_of_lt hi)]
        exact BitVec.and_self

/-- Within one range all permissions are those of the iterator. -/
theorem andPerms_range {it : Vmiter} {n : Nat} (hwf : WellFormed mem root)
    (h : Walked mem root it) (hn : 0 < n) (hle : it.va.toNat + n ≤ rangeStop it) :
    andPerms mem root it.va.toNat n = it.perms mem := by
  have hstop := (Walked.rangeStop h).2
  refine andPerms_const hn ?_
  intro i hi
  have hto : (BitVec.ofNat 64 (it.va.toNat + i)).toNat = it.va.toNat + i := by
    rw [BitVec.toNat_ofNat]
    omega
  obtain ⟨hpresent, habsent⟩ := @Walked.uniform_fresh mem root it
    (BitVec.ofNat 64 (it.va.toNat + i)) hwf.aligned hwf.low h (by omega) (by omega)
  rw [permAt_eq hwf]
  by_cases hp : it.present mem = true
  · exact (hpresent hp).2
  · rw [Bool.not_eq_true] at hp
    rw [habsent hp, (VmLeaf.perms_eq_zero_iff h).mpr hp]

/-- A stretch that is longer than the range goes on after it. -/
theorem permsUpTo_range {it : Vmiter} {n : Nat} (hwf : WellFormed mem root)
    (h : Walked mem root it) (hlong : rangeStop it < it.va.toNat + n) :
    permsUpTo mem root it.va.toNat n
      = it.perms mem &&& permsUpTo mem root (rangeStop it) (it.va.toNat + n - rangeStop it) := by
  have hlt : it.va.toNat < rangeStop it := (Walked.rangeStop h).1
  obtain ⟨k, hk⟩ : ∃ k, rangeStop it = it.va.toNat + k := ⟨rangeStop it - it.va.toNat, by omega⟩
  obtain ⟨m, rfl⟩ : ∃ m, n = k + m := ⟨n - k, by omega⟩
  have hrest : it.va.toNat + (k + m) - rangeStop it = m := by omega
  rw [permsUpTo, permsUpTo, hrest, hk, Nat.add_assoc]
  by_cases hpast : 2 ^ 64 < it.va.toNat + (k + m)
  · rw [if_pos hpast, if_pos hpast, BitVec.and_zero]
  · rw [if_neg hpast, if_neg hpast, andPerms_add, andPerms_range hwf h (by omega) (by omega)]

/-! ## The loop -/

/-- The loop ends when nothing is left to find out. -/
theorem permBody_stop {s : RangePerm} {p : Word} (hp : s.p = p) (h : p = 0#64 ∨ s.sz = 0#64) :
    permBody mem s = .leave (.ok p) := by
  rw [permBody, hp, if_neg]
  rintro ⟨hp, hsz⟩
  exact h.elim hp hsz

/-- A pass takes the permissions of one more range. -/
theorem permBody_pass {s : RangePerm} {it : Vmiter} (hp : s.p ≠ 0#64) (hsz : s.sz ≠ 0#64)
    (hnext : s.it.nextRange mem = .ok it) : permBody mem s = .again {
      p := s.p &&& (if s.it.va ≠ 0#64 then s.it.perms mem else 0#64)
      sz := s.sz - minWord s.sz s.it.rangeSize
      it := it } := by
  rw [permBody, if_pos ⟨hp, hsz⟩, hnext]

/-- What is left of the stretch after a range. -/
theorem toNat_sub_min {it : Vmiter} {sz : Word} (h : Walked mem root it) :
    (sz - minWord sz it.rangeSize).toNat = it.va.toNat + sz.toNat - rangeStop it := by
  have hsize := Walked.toNat_rangeSize h
  have hlt : it.va.toNat < rangeStop it := (Walked.rangeStop h).1
  rw [rangeStart] at hsize
  rw [minWord]
  by_cases hle : sz < it.rangeSize
  · rw [if_pos hle, BitVec.sub_self, show (0#64).toNat = 0 from rfl]
    rw [BitVec.lt_def] at hle
    omega
  · rw [if_neg hle, BitVec.toNat_sub_of_le (BitVec.not_lt.mp hle)]
    rw [BitVec.lt_def] at hle
    omega

theorem permsUpTo_empty (a : Word) : permsUpTo mem root a.toNat 0 = ~~~(0#64) := by
  have ha := a.isLt
  rw [permsUpTo, if_neg (by omega)]
  rfl

/-- A stretch that begins without permissions has none. -/
theorem permsUpTo_absent {it : Vmiter} {n : Nat} (hwf : WellFormed mem root)
    (h : Walked mem root it) (hperms : it.perms mem = 0#64) (hn : 0 < n) :
    permsUpTo mem root it.va.toNat n = 0#64 := by
  have hlt : it.va.toNat < rangeStop it := (Walked.rangeStop h).1
  obtain ⟨m, rfl⟩ : ∃ m, n = 1 + m := ⟨n - 1, by omega⟩
  rw [permsUpTo, andPerms_add, andPerms_range hwf h Nat.one_pos hlt, hperms]
  split
  · rfl
  · exact BitVec.zero_and

theorem pos_of_ne {x : Word} (h : x ≠ 0#64) : 0 < x.toNat :=
  Nat.pos_of_ne_zero fun h0 => h (BitVec.eq_of_toNat_eq h0)

/-- A stretch that ends in the first range. -/
theorem permsUpTo_within {it : Vmiter} {sz : Word} (hwf : WellFormed mem root)
    (h : Walked mem root it) (hsz : sz ≠ 0#64) (hle : sz ≤ it.rangeSize) :
    it.va.toNat + sz.toNat ≤ 2 ^ 64 ∧ permsUpTo mem root it.va.toNat sz.toNat = it.perms mem := by
  have hsize := Walked.toNat_rangeSize h
  have hlt : it.va.toNat < rangeStop it := (Walked.rangeStop h).1
  have hend := (Walked.rangeStop h).2
  rw [rangeStart] at hsize
  rw [BitVec.le_def] at hle
  have hfits : it.va.toNat + sz.toNat ≤ 2 ^ 64 := by omega
  refine ⟨hfits, ?_⟩
  rw [permsUpTo, if_neg (Nat.not_lt.mpr hfits), andPerms_range hwf h (pos_of_ne hsz) (by omega)]

/-- One pass from a walked iterator. -/
structure Pass (mem : Mem) (root : Word) (s s' : RangePerm) : Prop where
  walked : Walked mem root s.it
  va : s.it.va ≠ 0#64
  perms : s.p ≠ 0#64
  left : s.sz ≠ 0#64
  next : s.it.nextRange mem = .ok s'.it
  p : s'.p = s.p &&& s.it.perms mem
  sz : s'.sz = s.sz - minWord s.sz s.it.rangeSize

/-- Where the passes over `n` addresses from `a` on end, from permissions `p`. -/
inductive Outcome (mem : Mem) (root : Word) (a n : Nat) (p : Word) (s : RangePerm) : Prop where
  /-- There are no permissions or no addresses left. -/
  | stopped (stop : s.p = 0#64 ∨ s.sz = 0#64) (perms : s.p = p &&& permsUpTo mem root a n)
      (fits : a + n ≤ 2 ^ 64 ∨ p &&& andPerms mem root a (2 ^ 64 - a) = 0#64)
  /-- The address space ends before. -/
  | ended (it : s.it = ended root) (some : s.p ≠ 0#64) (left : s.sz ≠ 0#64)
      (past : 2 ^ 64 < a + n) (perms : s.p = p &&& andPerms mem root a (2 ^ 64 - a))

/-- The permissions up to the end of the address space, over the first range. -/
theorem andPerms_rest {it : Vmiter} (hwf : WellFormed mem root) (h : Walked mem root it) :
    andPerms mem root it.va.toNat (2 ^ 64 - it.va.toNat)
      = it.perms mem &&& andPerms mem root (rangeStop it) (2 ^ 64 - rangeStop it) := by
  have hlt : it.va.toNat < rangeStop it := (Walked.rangeStop h).1
  have hle := (Walked.rangeStop h).2
  have hsplit : 2 ^ 64 - it.va.toNat
      = (rangeStop it - it.va.toNat) + (2 ^ 64 - rangeStop it) := by omega
  have hstop : it.va.toNat + (rangeStop it - it.va.toNat) = rangeStop it := by omega
  rw [hsplit, andPerms_add, hstop, andPerms_range hwf h (by omega) (by omega)]

/-- After a range, what is left is over or goes on. -/
theorem outcome_of_range {it it' : Vmiter} {p sz sz' : Word} (hwf : WellFormed mem root)
    (h : Walked mem root it) (hsz : sz ≠ 0#64)
    (hrest : sz'.toNat = it.va.toNat + sz.toNat - rangeStop it)
    (hcase : (rangeStop it = 2 ^ 64 ∧ it' = ended root)
      ∨ (rangeStop it < 2 ^ 64 ∧ Walked mem root it' ∧ rangeStart it' = rangeStop it))
    (hloop : Walked mem root it' → it.va.toNat < it'.va.toNat →
      ∃ s', Relation.ReflTransGen (Pass mem root)
          { p := p &&& it.perms mem, sz := sz', it := it' } s'
        ∧ Outcome mem root it'.va.toNat sz'.toNat (p &&& it.perms mem) s') :
    ∃ s', Relation.ReflTransGen (Pass mem root)
        { p := p &&& it.perms mem, sz := sz', it := it' } s'
      ∧ Outcome mem root it.va.toNat sz.toNat p s' := by
  have hlt : it.va.toNat < rangeStop it := (Walked.rangeStop h).1
  have hpos := pos_of_ne hsz
  by_cases hlast : sz' = 0#64
  · -- the stretch ends in this range
    rw [hlast, show (0#64).toNat = 0 from rfl] at hrest
    have hle := (Walked.rangeStop h).2
    refine ⟨_, .refl, .stopped (Or.inr hlast) ?_ (Or.inl (by omega))⟩
    rw [permsUpTo, if_neg (by omega), andPerms_range hwf h hpos (by omega)]
  have hpos' := pos_of_ne hlast
  rcases hcase with ⟨hend, rfl⟩ | ⟨hmore, hw', hstart⟩
  · -- it ends past the address space
    have hperms : andPerms mem root it.va.toNat (2 ^ 64 - it.va.toNat) = it.perms mem :=
      andPerms_range hwf h (by omega) (by omega)
    by_cases hp : p &&& it.perms mem = 0#64
    · refine ⟨_, .refl, .stopped (Or.inl hp) ?_ (Or.inr (hperms ▸ hp))⟩
      rw [permsUpTo, if_pos (by omega), BitVec.and_zero]
      exact hp
    · exact ⟨_, .refl, .ended rfl hp hlast (by omega) (by rw [hperms])⟩
  · -- there is more behind this range
    rw [rangeStart] at hstart
    obtain ⟨s', hpass, hout⟩ := hloop hw' (by omega)
    refine ⟨s', hpass, ?_⟩
    rw [hstart, hrest] at hout
    -- what is over is the two parts together
    have hall := permsUpTo_range hwf h (n := sz.toNat) (by omega)
    have hand := andPerms_rest hwf h
    cases hout with
    | stopped stop hp fits =>
        refine .stopped stop ?_ ?_
        · rw [hp, hall, BitVec.and_assoc]
        · rw [hand, ← BitVec.and_assoc]
          exact fits.imp_left fun hle => by omega
    | ended hit hperms left past hp =>
        refine .ended hit hperms left (by omega) ?_
        rw [hp, hand, BitVec.and_assoc]

/-- **THE LOOP** intersects the permissions of what is left, up to the end of
    the address space. -/
theorem loop_outcome (hwf : WellFormed mem root) {it : Vmiter} {p sz : Word}
    (h : Walked mem root it) (hva : it.va ≠ 0#64) :
    ∃ s', Relation.ReflTransGen (Pass mem root) { p := p, sz := sz, it := it } s'
      ∧ Outcome mem root it.va.toNat sz.toNat p s' := by
  -- the ranges go up
  induction hμ : 2 ^ 64 - it.va.toNat using Nat.strongRecOn generalizing it p sz with
  | _ m ih =>
      have hva' := it.va.isLt
      by_cases hsz : sz = 0#64
      · subst hsz
        refine ⟨_, .refl, .stopped (Or.inr rfl) ?_ (Or.inl (Nat.le_of_lt hva'))⟩
        rw [show (0#64).toNat = 0 from rfl, permsUpTo_empty]
        exact (BitVec.and_allOnes).symm
      by_cases hp : p = 0#64
      · refine ⟨_, .refl, .stopped (Or.inl hp) ?_ (Or.inr ?_)⟩
        · rw [hp, BitVec.zero_and]
        · rw [hp, BitVec.zero_and]
      obtain ⟨it', hnext, hcase⟩ := Walked.nextRange hwf.aligned hwf.low h
      obtain ⟨s', hpass, hout⟩ := outcome_of_range (p := p) hwf h hsz (toNat_sub_min h) hcase (by
        intro hw' hup
        refine ih (2 ^ 64 - it'.va.toNat) (by omega) hw' ?_ rfl
        intro h0
        rw [h0] at hup
        exact Nat.not_lt_zero _ hup)
      exact ⟨s', .head ⟨h, hva, hp, hsz, hnext, rfl, rfl⟩ hpass, hout⟩

/-- The first range, which `range_perm` takes by itself. -/
theorem rangePerm_cases (hwf : WellFormed mem root) {it : Vmiter} (h : Walked mem root it)
    {sz : Word} (hsz : sz ≠ 0#64) (hlong : ¬ sz ≤ it.rangeSize) :
    ∃ copy, it.nextRange mem = .ok copy
      ∧ ∃ s', Relation.ReflTransGen (Pass mem root)
          { p := it.perms mem, sz := sz - it.rangeSize, it := copy } s'
        ∧ Outcome mem root it.va.toNat sz.toNat (~~~(0#64)) s' := by
  have hsize := Walked.toNat_rangeSize h
  have hlt : it.va.toNat < rangeStop it := (Walked.rangeStop h).1
  rw [rangeStart] at hsize
  have hlong' : it.rangeSize.toNat < sz.toNat :=
    Nat.lt_of_not_le fun h' => hlong (BitVec.le_def.mpr h')
  have hrest : (sz - it.rangeSize).toNat = it.va.toNat + sz.toNat - rangeStop it := by
    rw [BitVec.toNat_sub_of_le (BitVec.le_def.mpr (Nat.le_of_lt hlong'))]
    omega
  have hones : ~~~(0#64) &&& it.perms mem = it.perms mem := BitVec.allOnes_and
  obtain ⟨copy, hnext, hcase⟩ := Walked.nextRange hwf.aligned hwf.low h
  have hout := outcome_of_range (p := ~~~(0#64)) hwf h hsz hrest hcase (by
    intro hw' hup
    refine loop_outcome hwf hw' ?_
    intro h0
    rw [h0] at hup
    exact Nat.not_lt_zero _ hup)
  rw [hones] at hout
  exact ⟨copy, hnext, hout⟩

/-! ## With shift counts modulo 64 -/

/-- What the loop returns is not changed by passes. -/
theorem returns_of_passes {s s' : RangePerm} {r : Except Fault Word}
    (h : Relation.ReflTransGen (Pass mem root) s s')
    (hr : Returns (fun fuel => run (permBody mem) fuel s') r) :
    Returns (fun fuel => run (permBody mem) fuel s) r := by
  induction h using Relation.ReflTransGen.head_induction_on with
  | refl => exact hr
  | head hpass _ ih =>
      refine returns_again (permBody_pass hpass.perms hpass.left hpass.next) ?_
      rw [if_pos hpass.va, ← hpass.p, ← hpass.sz]
      exact ih

/-- Past the last address there are no permissions. -/
theorem permBody_ended (hwf : WellFormed mem root) {p sz : Word} (hp : p ≠ 0#64)
    (hsz : sz ≠ 0#64) :
    Returns (fun fuel => run (permBody mem) fuel { p := p, sz := sz, it := ended root })
      (.ok 0#64) := by
  have hlast : (ended root).lastVa = 1#64 := by
    show (0#64 ||| Vmiter.lbitsMask 64) + 1#64 = 1#64
    decide
  obtain ⟨it, hnext⟩ : ∃ it, (ended root).nextRange mem = .ok it := by
    refine ⟨fresh mem root 1#64, ?_⟩
    rw [Vmiter.nextRange, hlast, findImpl_eq hwf.aligned (Or.inr rfl) rfl]
    exact new_ok hwf.aligned hwf.low _
  refine returns_again (permBody_pass hp hsz hnext) ?_
  exact returns_leave (permBody_stop BitVec.and_zero (Or.inl rfl))

/-- The loop returns the permissions of its range. -/
theorem Outcome.returns {a n : Nat} {p : Word} {s : RangePerm} (hwf : WellFormed mem root)
    (h : Outcome mem root a n p s) :
    Returns (fun fuel => run (permBody mem) fuel s) (.ok (p &&& permsUpTo mem root a n)) := by
  cases h with
  | stopped stop hp _ =>
      rw [← hp]
      exact returns_leave (permBody_stop rfl stop)
  | ended hit perms left past _ =>
      rw [permsUpTo, if_pos past, BitVec.and_zero]
      obtain ⟨p', sz', it'⟩ := s
      obtain rfl : it' = VmWalk.ended root := hit
      exact permBody_ended hwf perms left

/-- `range_perm` from a walked iterator. -/
theorem rangePerm_returns (hwf : WellFormed mem root) {it : Vmiter} (h : Walked mem root it)
    (sz : Word) :
    Returns (rangePerm mem it sz) (.ok (permsUpTo mem root it.va.toNat sz.toNat)) := by
  by_cases hsz : sz = 0#64
  · refine (Returns.pure _).congr ?_
    intro fuel
    rw [rangePerm, hsz, if_pos rfl, if_pos (Or.inr (BitVec.le_def.mpr (Nat.zero_le _))),
      show (0#64).toNat = 0 from rfl, permsUpTo_empty]
  have hpos := pos_of_ne hsz
  by_cases hp : it.perms mem = 0#64
  · refine (Returns.pure _).congr ?_
    intro fuel
    rw [rangePerm, if_neg hsz, if_pos (Or.inl hp), permsUpTo_absent hwf h hp hpos, hp]
  by_cases hle : sz ≤ it.rangeSize
  · refine (Returns.pure _).congr ?_
    intro fuel
    rw [rangePerm, if_neg hsz, if_pos (Or.inr hle), (permsUpTo_within hwf h hsz hle).2]
  obtain ⟨copy, hnext, s', hpass, hout⟩ := rangePerm_cases hwf h hsz hle
  have hones : ~~~(0#64) &&& permsUpTo mem root it.va.toNat sz.toNat
      = permsUpTo mem root it.va.toNat sz.toNat := BitVec.allOnes_and
  rw [← hones]
  refine (returns_of_passes hpass (hout.returns hwf)).congr ?_
  intro fuel
  rw [rangePerm, if_neg hsz, if_neg (fun h' => h'.elim hp hle), hnext]

/-- **RANGE PERMISSIONS**: the intersection of the permissions of all addresses
    of the stretch, 0 when it runs past 2^64, and all ones when it is empty. -/
theorem rangePerm_eq {s : State} (hwf : WellFormed s.mem root) (h : Reached root s)
    (hd : s.it.done = false) (sz : Word) :
    ∃ p, Returns (rangePerm s.mem s.it sz) (.ok p)
      ∧ (s.it.va.toNat + sz.toNat ≤ 2 ^ 64 → p = andPerms s.mem root s.it.va.toNat sz.toNat)
      ∧ (2 ^ 64 < s.it.va.toNat + sz.toNat → p = 0#64)
      ∧ (sz = 0#64 → p = ~~~(0#64)) := by
  refine ⟨permsUpTo s.mem root s.it.va.toNat sz.toNat,
    rangePerm_returns hwf (h.walked hd) sz, ?_, ?_, ?_⟩
  · intro hle
    exact if_neg (Nat.not_lt.mpr hle)
  · intro hpast
    exact if_pos hpast
  · rintro rfl
    exact permsUpTo_empty s.it.va

/-- From the middle of a page, over its end. -/
theorem rangePerm_eq_small :
    ∃ it₀, Vmiter.new smallTable 0x1000#64 0x1234#64 = .ok it₀
      ∧ ∃ p, Returns (rangePerm smallTable it₀ 0x2000#64) (.ok p)
        ∧ (it₀.va.toNat + (0x2000#64).toNat ≤ 2 ^ 64 →
            p = andPerms smallTable 0x1000#64 it₀.va.toNat (0x2000#64).toNat)
        ∧ (2 ^ 64 < it₀.va.toNat + (0x2000#64).toNat → p = 0#64)
        ∧ (0x2000#64 = 0#64 → p = ~~~(0#64)) := by
  have hwf := smallTable_wellFormed
  have hnew := new_ok hwf.aligned hwf.low 0x1234#64
  exact ⟨_, hnew, rangePerm_eq hwf (Reached.new hwf hnew)
    (Walked.not_done (fresh_walked hwf.aligned _).1) _⟩

end VmRangePerm
