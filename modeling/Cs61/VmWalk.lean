import Cs61.VmIter

/-! # The walk of a `vmiter` — every move is a fresh construction

    `fresh mem root va` is what `vmiter(pt, va)` has computed when it comes to
    the check for uninitialized memory.  An iterator that stands where such a
    walk stops is `Walked`; there is only one such iterator for each address.

    `find_impl` takes a shortcut within one page-table page and otherwise
    restarts from the root.  `findImpl_eq` says that it makes no difference:
    from any walked or ended iterator, `find_impl` gives what the constructor
    gives. -/

namespace VmWalk

open PageTable PostOrder VmIter WordMasks
open Vmiter (descend downLoop checked seek init findImpl lbitsMask)

variable {mem : Mem} {root : Word}

/-! ## Positions on a path -/

/-- Entry `i` of the page at path `p`. -/
def entryAt (mem : Mem) (root : Word) (p : List Nat) (i : Nat) : Word :=
  match table mem root p with
  | none => 0#64
  | some t => mem (entryPtr t (BitVec.ofNat 64 i))

/-- What is left of `initial_perm` after following a path. -/
def permPath (mem : Mem) (root : Word) : List Nat → Word
  | [] => Vmiter.initialPerm
  | i :: p => permPath mem root p &&& (entryAt mem root p i ||| ~~~ptePWU)

/-- The entry of a table that is there. -/
theorem entryAt_of {t : Word} {p : List Nat} (h : table mem root p = some t) (i : Nat) :
    entryAt mem root p i = mem (entryPtr t (BitVec.ofNat 64 i)) := by
  rw [entryAt, h]

/-- The iterator stands at depth `d` of the walk to its address. -/
structure OnPath (mem : Mem) (root : Word) (d : Nat) (it : Vmiter) : Prop where
  pt : it.pt = root
  depth : d ≤ 3
  canonical : vaIsCanonical it.va = true
  lbits : it.lbits = lbitsAt d
  slot : ∃ t, table mem root (vaPath it.va d) = some t ∧
    it.pep = .slot (entryPtr t (BitVec.ofNat 64 (idxAt it.va (lbitsAt d))))
  perm : it.perm = permPath mem root (vaPath it.va d)

/-- The iterator stands in the non-canonical hole. -/
structure OffPath (root : Word) (it : Vmiter) : Prop where
  pt : it.pt = root
  noncanonical : vaIsCanonical it.va = false
  lbits : it.lbits = Vmiter.noncanonicalLbits
  pep : it.pep = .zeroPe
  perm : it.perm = 0#64

/-- The iterator stands where a walk to its address stops. -/
def Walked (mem : Mem) (root : Word) (it : Vmiter) : Prop :=
  (∃ d, OnPath mem root d it ∧ it.descends mem = false) ∨ OffPath root it

/-- The iterator a stepping move past the last address leaves. -/
def ended (root : Word) : Vmiter :=
  { pt := root, pep := .zeroPe, lbits := Vmiter.doneLbits, perm := 0#64, va := 0#64 }

/-- What every operation keeps. -/
def Coherent (mem : Mem) (root : Word) (it : Vmiter) : Prop :=
  Walked mem root it ∨ it = ended root

/-- The constructor's walk, before the check for uninitialized memory. -/
def fresh (mem : Mem) (root va : Word) : Vmiter :=
  downLoop mem ((init root).seek va false).lbits ((init root).seek va false)

/-- The constructor walks, then checks. -/
theorem new_eq (mem : Mem) (root va : Word) :
    Vmiter.new mem root va = (fresh mem root va).checked mem := rfl

/-- The entry that an iterator points to. -/
theorem OnPath.read {d : Nat} {it : Vmiter} (h : OnPath mem root d it) :
    it.pep.read mem = entryAt mem root (vaPath it.va d) (idxAt it.va (lbitsAt d)) := by
  obtain ⟨t, ht, hpep⟩ := h.slot
  rw [hpep, entryAt_of ht]
  rfl

theorem lbitsAt_gt {d : Nat} (h : d ≤ 3) : pageOffBits < lbitsAt d ↔ d < 3 := by
  simp only [lbitsAt, pageOffBits, pageIndexBits]
  omega

/-- A pass of the loop goes one level down the path. -/
theorem OnPath.descend {d : Nat} {it : Vmiter} (h : OnPath mem root d it)
    (hd : it.descends mem = true) : d < 3 ∧ OnPath mem root (d + 1) (it.descend mem) := by
  obtain ⟨t, ht, hpep⟩ := h.slot
  rw [Vmiter.descends, Bool.and_eq_true, decide_eq_true_iff, h.lbits, lbitsAt_gt h.depth] at hd
  obtain ⟨hlt, htable⟩ := hd
  have hlb : lbitsAt d - pageIndexBits = lbitsAt (d + 1) := by
    have := lbitsAt_succ hlt
    simp only [pageIndexBits]
    omega
  rw [h.read] at htable
  have hchild : table mem root (vaPath it.va (d + 1))
      = some (entryAt mem root (vaPath it.va d) (idxAt it.va (lbitsAt d)) &&& ptePAMask) := by
    rw [vaPath_succ, table, node_cons_of (child mem) ht, entryAt_of ht] at *
    exact pointee_eq_some.mpr ⟨htable, rfl⟩
  refine ⟨hlt, ⟨h.pt, hlt, h.canonical, ?_, ⟨_, hchild, ?_⟩, ?_⟩⟩
  · show it.lbits - pageIndexBits = lbitsAt (d + 1)
    rw [h.lbits, hlb]
  · show Pep.slot (entryPtr (it.pep.read mem &&& ptePAMask)
      ((it.va >>> (it.lbits - pageIndexBits)) &&& 0x1FF#64)) = _
    rw [h.lbits, hlb, and_0x1FF, h.read]
    rfl
  · show it.perm &&& (it.pep.read mem ||| ~~~ptePWU) = _
    rw [h.perm, h.read]
    rfl

/-- The loop of `down` runs to the end of the path. -/
theorem downLoop_walked {d n : Nat} {it : Vmiter} (h : OnPath mem root d it) (hn : 3 ≤ d + n) :
    ∃ e, OnPath mem root e (downLoop mem n it) ∧ (downLoop mem n it).descends mem = false
      ∧ (downLoop mem n it).va = it.va := by
  induction n generalizing d it with
  | zero =>
      refine ⟨d, h, ?_, rfl⟩
      show it.descends mem = false
      refine Bool.eq_false_iff.mpr ?_
      intro hd
      have := (h.descend hd).1
      omega
  | succ n ih =>
      by_cases hd : it.descends mem = true
      · obtain ⟨hlt, hon⟩ := h.descend hd
        rw [downLoop, if_pos hd]
        obtain ⟨e, he, hstop, hva⟩ := ih hon (by omega)
        exact ⟨e, he, hstop, hva⟩
      · rw [downLoop, if_neg hd]
        exact ⟨d, h, Bool.eq_false_iff.mpr hd, rfl⟩

/-- At `zero_pe` the loop of `down` does nothing. -/
theorem downLoop_zeroPe {n : Nat} {it : Vmiter} (h : it.pep = .zeroPe) :
    downLoop mem n it = it := by
  cases n with
  | zero => rfl
  | succ n =>
      have hd : it.descends mem = false := by
        rw [Vmiter.descends, h, show isTable (Pep.read mem .zeroPe) = false from isTable_zero,
          Bool.and_false]
      rw [downLoop, if_neg (by rw [hd]; exact Bool.false_ne_true)]

/-! ## One walked iterator for each address -/

/-- Tables on the way to a table exist. -/
theorem table_of_deeper {va t : Word} {d e : Nat} (hde : d ≤ e)
    (h : table mem root (vaPath va e) = some t) : ∃ s, table mem root (vaPath va d) = some s := by
  obtain ⟨k, rfl⟩ : ∃ k, e = d + k := ⟨e - d, by omega⟩
  clear hde
  induction k generalizing t with
  | zero => exact ⟨t, h⟩
  | succ k ih =>
      rw [← Nat.add_assoc, vaPath_succ] at h
      obtain ⟨s, hs, -⟩ := node_tail (child mem) h
      exact ih hs

/-- A walk does not stop above a table on its path. -/
theorem OnPath.depth_ge {d e : Nat} {it : Vmiter} {t : Word} (h : OnPath mem root d it)
    (hstop : it.descends mem = false) (he : e ≤ 3)
    (ht : table mem root (vaPath it.va e) = some t) : e ≤ d := by
  by_contra hlt
  -- the path to depth `e` goes on through the entry where `it` stopped
  obtain ⟨c, hc⟩ := table_of_deeper (show d + 1 ≤ e by omega) ht
  obtain ⟨s, hs, -⟩ := h.slot
  rw [vaPath_succ, table, node_cons_of (child mem) hs] at hc
  have htable := (pointee_eq_some.mp hc).1
  rw [Vmiter.descends, h.read, entryAt_of hs, htable, Bool.and_true, h.lbits,
    decide_eq_false_iff_not, lbitsAt_gt h.depth] at hstop
  omega

/-- A walk cannot stop above a depth it also reaches. -/
theorem OnPath.le_of_stopped {d e : Nat} {it it' : Vmiter} (h : OnPath mem root d it)
    (h' : OnPath mem root e it') (hva : it.va = it'.va) (hstop : it.descends mem = false) :
    e ≤ d := by
  obtain ⟨t, ht, -⟩ := h'.slot
  rw [← hva] at ht
  exact h.depth_ge hstop h'.depth ht

/-- **UNIQUENESS**: where a walk stops is determined by the address. -/
theorem Walked.unique {it it' : Vmiter} (h : Walked mem root it) (h' : Walked mem root it')
    (hva : it.va = it'.va) : it = it' := by
  rcases h with ⟨d, hon, hstop⟩ | hoff
  · rcases h' with ⟨e, hon', hstop'⟩ | hoff'
    · have hde : d = e :=
        Nat.le_antisymm (hon'.le_of_stopped hon hva.symm hstop')
          (hon.le_of_stopped hon' hva hstop)
      subst hde
      obtain ⟨t, ht, hpep⟩ := hon.slot
      obtain ⟨t', ht', hpep'⟩ := hon'.slot
      rw [← hva, ht] at ht'
      rw [← hva, ← Option.some.inj ht'] at hpep'
      have hpt := hon.pt.trans hon'.pt.symm
      have hlb := hon.lbits.trans hon'.lbits.symm
      have hperm := hon.perm
      rw [hva, ← hon'.perm] at hperm
      cases it
      cases it'
      simp only at hva hpt hlb hperm hpep hpep'
      subst hva hpt hlb hperm hpep hpep'
      rfl
    · have := hoff'.noncanonical
      rw [← hva, hon.canonical] at this
      exact Bool.noConfusion this
  · rcases h' with ⟨e, hon', -⟩ | hoff'
    · have := hoff.noncanonical
      rw [hva, hon'.canonical] at this
      exact Bool.noConfusion this
    · have hpt := hoff.pt.trans hoff'.pt.symm
      have hlb := hoff.lbits.trans hoff'.lbits.symm
      have hpep := hoff.pep.trans hoff'.pep.symm
      have hperm := hoff.perm.trans hoff'.perm.symm
      cases it
      cases it'
      simp only at hva hpt hlb hperm hpep
      subst hva hpt hlb hperm hpep
      rfl

/-! ## `find_impl` -/

/-- The start of a walk from the root. -/
theorem onPath_root {va : Word} (hc : vaIsCanonical va = true) (it : Vmiter) (hpt : it.pt = root) :
    OnPath mem root 0
      { it with
        lbits := Vmiter.initialLbits
        perm := Vmiter.initialPerm
        pep := .slot (entryPtr it.pt ((va >>> Vmiter.initialLbits) &&& 0x1FF#64))
        va := va } := by
  refine ⟨hpt, Nat.zero_le _, hc, rfl, ⟨root, rfl, ?_⟩, rfl⟩
  rw [and_0x1FF, hpt]
  rfl

/-- The pointer arithmetic of the shortcut lands on the right entry. -/
theorem pep_shortcut {t : Word} (ht : PageAligned t) {i j : Nat} (hi : i < 512) :
    (Pep.slot (entryPtr t (BitVec.ofNat 64 i))).add
        (BitVec.ofNat 64 j - (Pep.slot (entryPtr t (BitVec.ofNat 64 i))).curidx)
      = .slot (entryPtr t (BitVec.ofNat 64 j)) := by
  have hcur : (Pep.slot (entryPtr t (BitVec.ofNat 64 i))).curidx = BitVec.ofNat 64 i := by
    have ht' : t.toNat % 4096 = 0 := ht
    refine BitVec.eq_of_toNat_eq ?_
    rw [Pep.curidx, BitVec.toNat_ushiftRight, BitVec.toNat_umod, toNat_entryPtr ht hi,
      show pageSize.toNat = 4096 from rfl, Nat.shiftRight_eq_div_pow, BitVec.toNat_ofNat]
    omega
  rw [hcur, Pep.add, entryPtr, entryPtr, BitVec.add_assoc, ← BitVec.mul_add,
    BitVec.add_comm (BitVec.ofNat 64 i), BitVec.sub_add_cancel]

/-- The shortcut moves along the last level of the path. -/
theorem OnPath.shortcut {d : Nat} {it : Vmiter} {va : Word} (hroot : PageAligned root)
    (h : OnPath mem root d it) (hlt : it.lbits < Vmiter.initialLbits)
    (hsame : it.va.toNat / 2 ^ (it.lbits + pageIndexBits)
      = va.toNat / 2 ^ (it.lbits + pageIndexBits)) :
    OnPath mem root d
      { it with
        pep := it.pep.add (((va >>> it.lbits) &&& 0x1FF#64) - it.pep.curidx)
        va := va } := by
  rw [h.lbits] at hlt hsame
  have hd : 0 < d := by
    rcases Nat.eq_zero_or_pos d with h0 | hpos
    · rw [h0] at hlt; exact absurd hlt (by decide)
    · exact hpos
  have hpath : vaPath it.va d = vaPath va d := vaPath_congr h.depth hsame
  have hcanon : vaIsCanonical it.va = vaIsCanonical va := by
    refine vaIsCanonical_congr ?_
    obtain ⟨k, hk⟩ : ∃ k, lbitsAt d + pageIndexBits + k = 39 :=
      ⟨39 - (lbitsAt d + pageIndexBits),
        by simp only [lbitsAt, pageOffBits, pageIndexBits]; omega⟩
    rw [← hk, Nat.pow_add, ← Nat.div_div_eq_div_mul, ← Nat.div_div_eq_div_mul, hsame]
  obtain ⟨t, ht, hpep⟩ := h.slot
  refine ⟨h.pt, h.depth, ?_, h.lbits, ⟨t, ?_, ?_⟩, ?_⟩
  · rw [← hcanon]; exact h.canonical
  · show table mem root (vaPath va d) = some t
    rw [← hpath]; exact ht
  · show it.pep.add (((va >>> it.lbits) &&& 0x1FF#64) - it.pep.curidx) = _
    rw [hpep, h.lbits, and_0x1FF]
    exact pep_shortcut (table_aligned hroot ht) (idxAt_lt _ _)
  · show it.perm = permPath mem root (vaPath va d)
    rw [← hpath]; exact h.perm

/-- A coherent iterator that may take the shortcut is on a path. -/
theorem Coherent.onPath {it : Vmiter} (h : Coherent mem root it ∨ it = init root)
    (hlt : it.lbits < Vmiter.initialLbits) : ∃ d, OnPath mem root d it := by
  rcases h with ((⟨d, hon, -⟩ | hoff) | hended) | hinit
  · exact ⟨d, hon⟩
  · rw [hoff.lbits] at hlt
    exact absurd hlt (by decide)
  · rw [hended] at hlt
    exact absurd hlt (show ¬ Vmiter.doneLbits < Vmiter.initialLbits by decide)
  · rw [hinit] at hlt
    exact absurd hlt (show ¬ Vmiter.initialLbits < Vmiter.initialLbits by decide)

/-- A coherent iterator keeps its root. -/
theorem Coherent.pt_eq {it : Vmiter} (h : Coherent mem root it ∨ it = init root) :
    it.pt = root := by
  rcases h with ((⟨d, hon, -⟩ | hoff) | hended) | hinit
  · exact hon.pt
  · exact hoff.pt
  · rw [hended]; rfl
  · rw [hinit]; rfl

/-- Going down ends where the walk does. -/
theorem OnPath.down {d : Nat} {it : Vmiter} (h : OnPath mem root d it) :
    Walked mem root (downLoop mem it.lbits it) ∧ (downLoop mem it.lbits it).va = it.va := by
  have hfuel : 3 ≤ d + it.lbits := by
    rw [h.lbits]
    simp only [lbitsAt, pageOffBits]
    omega
  obtain ⟨e, hon, hstop, hva⟩ := downLoop_walked h hfuel
  exact ⟨Or.inl ⟨e, hon, hstop⟩, hva⟩

/-- Where `find_impl` starts, the loop of `down` ends at a walked iterator. -/
theorem seek_walked (hroot : PageAligned root) {it : Vmiter} {va : Word} {stepping : Bool}
    (h : Coherent mem root it ∨ it = init root) (hne : (stepping && va == 0#64) = false) :
    Walked mem root (downLoop mem (it.seek va stepping).lbits (it.seek va stepping))
      ∧ (downLoop mem (it.seek va stepping).lbits (it.seek va stepping)).va = va := by
  have hpt := Coherent.pt_eq h
  rw [seek, if_neg (by rw [hne]; exact Bool.false_ne_true)]
  by_cases hs : (decide (it.lbits < Vmiter.initialLbits)
      && (it.va ^^^ va) &&& (~~~(0#64) <<< (it.lbits + pageIndexBits)) == 0#64) = true
  · rw [if_pos hs]
    rw [Bool.and_eq_true, decide_eq_true_iff, beq_iff_eq, xor_and_high_eq_zero] at hs
    obtain ⟨d, hon⟩ := Coherent.onPath h hs.1
    exact (hon.shortcut hroot hs.1 hs.2).down
  · rw [if_neg hs]
    by_cases hc : vaIsCanonical va = true
    · rw [if_neg (by rw [hc]; decide)]
      exact (onPath_root hc it hpt).down
    · have hc' : vaIsCanonical va = false := Bool.eq_false_iff.mpr hc
      rw [if_pos (by rw [hc']; rfl), downLoop_zeroPe rfl]
      exact ⟨Or.inr ⟨hpt, hc', rfl, rfl, rfl⟩, rfl⟩

/-- A fresh iterator has walked to its address. -/
theorem fresh_walked (hroot : PageAligned root) (va : Word) :
    Walked mem root (fresh mem root va) ∧ (fresh mem root va).va = va :=
  seek_walked hroot (Or.inr rfl) rfl

/-- A walked iterator is the fresh one at its address. -/
theorem Walked.eq_fresh (hroot : PageAligned root) {it : Vmiter} (h : Walked mem root it) :
    it = fresh mem root it.va :=
  h.unique (fresh_walked hroot it.va).1 (fresh_walked hroot it.va).2.symm

/-- An iterator that stands where the walk stops is the fresh one. -/
theorem OnPath.eq_fresh (hroot : PageAligned root) {d : Nat} {it : Vmiter}
    (h : OnPath mem root d it) (hstop : it.descends mem = false) :
    it = fresh mem root it.va :=
  Walked.eq_fresh hroot (Or.inl ⟨d, h, hstop⟩)

theorem fresh_va (hroot : PageAligned root) (va : Word) : (fresh mem root va).va = va :=
  (fresh_walked hroot va).2

/-- A stepping move to address 0 ends the iteration. -/
theorem findImpl_ended {it : Vmiter} (h : it.pt = root) :
    it.findImpl mem 0#64 true = .ok (ended root) := by
  have hseek : it.seek 0#64 true = ended root := by
    rw [seek, if_pos (by decide), h]
    rfl
  rw [findImpl, hseek, Vmiter.down, downLoop_zeroPe rfl, checked, if_neg]
  rw [Vmiter.uninitialized, show (ended root).pep.read mem = 0#64 from rfl,
    show decide (0x100000000#64 ≤ 0#64 &&& ptePAMask) = false by decide, Bool.false_and]
  exact Bool.false_ne_true

/-- **THE SHORTCUT IS SOUND**: any other move of `find_impl`, from wherever, is
    the constructor's walk. -/
theorem findImpl_eq (hroot : PageAligned root) {it : Vmiter} {va : Word} {stepping : Bool}
    (h : Coherent mem root it) (hne : (stepping && va == 0#64) = false) :
    it.findImpl mem va stepping = Vmiter.new mem root va := by
  obtain ⟨hw, hva⟩ := seek_walked hroot (Or.inl h) hne
  have heq := hw.eq_fresh hroot
  rw [hva] at heq
  rw [findImpl, Vmiter.down, heq, new_eq]

/-! ## The check for uninitialized memory -/

/-- A walked iterator passes the check when physical addresses are low. -/
theorem Walked.checked_ok (hlow : PhysLow mem root) {it : Vmiter} (h : Walked mem root it) :
    it.checked mem = .ok it := by
  rw [checked, if_neg]
  rw [Vmiter.uninitialized, Bool.and_eq_true, decide_eq_true_iff, decide_eq_true_iff]
  rintro ⟨hbig, hlb⟩
  rw [BitVec.le_def] at hbig
  rcases h with ⟨d, hon, -⟩ | hoff
  · have hd : 2 ≤ d := by
      rw [hon.lbits] at hlb
      simp only [lbitsAt, pageOffBits, pageIndexBits] at hlb
      omega
    obtain ⟨t, ht, hpep⟩ := hon.slot
    have hlt := hlow (vaPath it.va d) t (idxAt it.va (lbitsAt d))
      ((isPath_vaPath it.va d).mono hon.depth) (by rw [length_vaPath]; exact hd) ht
      (idxAt_lt _ _)
    rw [hpep] at hbig
    have hbig' : (0x100000000#64).toNat
        ≤ (mem (entryPtr t (BitVec.ofNat 64 (idxAt it.va (lbitsAt d)))) &&& ptePAMask).toNat :=
      hbig
    rw [show (0x100000000#64).toNat = 2 ^ 32 from rfl] at hbig'
    omega
  · rw [hoff.lbits] at hlb
    exact absurd hlb (by decide)

/-- The constructor succeeds when physical addresses are low. -/
theorem new_ok (hroot : PageAligned root) (hlow : PhysLow mem root) (va : Word) :
    Vmiter.new mem root va = .ok (fresh mem root va) :=
  (fresh_walked hroot va).1.checked_ok hlow

end VmWalk
