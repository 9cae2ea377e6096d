import Cs61.HardwareWalk
import Cs61.VmRanges

/-! # The entry that maps an address

    A walk stops at the entry that maps an address, or at one that maps
    nothing.  Here the mapping is stated by the entries alone: `Present` and
    `UserAt` do not mention an iterator, and the queries of a walked iterator
    answer them. -/

namespace VmLeaf

open PageTable PostOrder VmIter WordMasks VmWalk VmQueries VmRanges HardwareWalk
open Vmiter (lbitsMask)

variable {mem : Mem} {root va : Word}

/-- The walk to `va` stops at depth `d`. -/
structure StopsAt (mem : Mem) (root va : Word) (d : Nat) : Prop where
  canonical : vaIsCanonical va = true
  depth : d ≤ 3
  table : ∃ t, table mem root (vaPath va d) = some t
  stop : d < 3 → isTable (levelEntry mem root va d) = false

/-- The entry that maps `va` has `PTE_P`. -/
def Present (mem : Mem) (root va : Word) : Prop :=
  ∃ d, StopsAt mem root va d ∧ (levelEntry mem root va d).getLsbD 0 = true

/-- `va` is mapped to `pa`, with `PTE_P` and `PTE_U` at every level. -/
def UserAt (mem : Mem) (root va pa : Word) : Prop :=
  ∃ d, StopsAt mem root va d
    ∧ (∀ e, e ≤ d → (levelEntry mem root va e).getLsbD 0 = true
        ∧ (levelEntry mem root va e).getLsbD 2 = true)
    ∧ pa = frame (levelEntry mem root va d) (lbitsAt d) + (va &&& lbitsMask (lbitsAt d))

/-! ## Where the walk stops -/

/-- A walk does not stop above a page on its path. -/
theorem StopsAt.depth_ge {d e : Nat} {t : Word} (h : StopsAt mem root va d) (he : e ≤ 3)
    (ht : PageTable.table mem root (vaPath va e) = some t) : e ≤ d := by
  by_contra hlt
  obtain ⟨c, hc⟩ := table_of_deeper (show d + 1 ≤ e by omega) ht
  obtain ⟨s, hs, -⟩ := table_above hc
  rw [vaPath_succ, PageTable.table, node_cons_of (child mem) hs] at hc
  have htable := (pointee_eq_some.mp hc).1
  rw [← entryAt_of hs] at htable
  exact Bool.noConfusion (htable.symm.trans (h.stop (by omega)))

/-- The walk stops at one level. -/
theorem StopsAt.unique {d e : Nat} (h : StopsAt mem root va d) (h' : StopsAt mem root va e) :
    d = e := by
  obtain ⟨t, ht⟩ := h.table
  obtain ⟨t', ht'⟩ := h'.table
  exact Nat.le_antisymm (h'.depth_ge h.depth ht) (h.depth_ge h'.depth ht')

/-- An iterator that goes no further is where the walk stops. -/
theorem stopsAt_of_onPath {d : Nat} {it : Vmiter} (h : OnPath mem root d it)
    (hs : it.descends mem = false) : StopsAt mem root it.va d := by
  obtain ⟨t, ht, -⟩ := h.slot
  refine ⟨h.canonical, h.depth, ⟨t, ht⟩, ?_⟩
  intro hd
  rw [Vmiter.descends, h.lbits, decide_eq_true ((lbitsAt_gt h.depth).mpr hd), Bool.true_and,
    h.read] at hs
  exact hs

/-- Every entry above the one where the walk stops is present. -/
theorem StopsAt.present_above {d e : Nat} (h : StopsAt mem root va d) (he : e < d) :
    (levelEntry mem root va e).getLsbD 0 = true := by
  obtain ⟨t, ht⟩ := h.table
  obtain ⟨s, hs⟩ := table_of_deeper (show e + 1 ≤ d by omega) ht
  obtain ⟨-, -, hp, -⟩ := table_above hs
  exact hp

/-! ## What a walked iterator answers -/

/-- `perm()` is 0 exactly where nothing is mapped. -/
theorem perms_eq_zero_iff {it : Vmiter} (h : Walked mem root it) :
    it.perms mem = 0#64 ↔ it.present mem = false := by
  rcases h with ⟨d, hon, -⟩ | hoff
  · obtain ⟨t, ht, -⟩ := hon.slot
    rw [← Bool.not_eq_true, onPath_present_iff hon, onPath_perms hon]
    by_cases hb : (it.pep.read mem).getLsbD 0 = true
    · rw [if_pos hb]
      refine ⟨fun h0 => ?_, fun hno => absurd hb hno⟩
      have hbit := congrArg (fun x => x.getLsbD 0) h0
      rw [BitVec.getLsbD_and, hb, hon.perm, permPath_present ht] at hbit
      cases hbit
    · rw [if_neg hb]
      exact ⟨fun _ => hb, fun _ => rfl⟩
  · exact ⟨fun _ => offPath_present hoff, fun _ => offPath_perms hoff⟩

/-- `present()`. -/
theorem present_iff {it : Vmiter} (h : Walked mem root it) :
    it.present mem = true ↔ Present mem root it.va := by
  rcases h with ⟨d, hon, hs⟩ | hoff
  · have hstop := stopsAt_of_onPath hon hs
    rw [onPath_present_iff hon, hon.read]
    constructor
    · intro hp
      exact ⟨d, hstop, hp⟩
    · rintro ⟨e, he, hp⟩
      rw [hstop.unique he]
      exact hp
  · rw [offPath_present hoff]
    constructor
    · intro hp
      cases hp
    · rintro ⟨d, hd, -⟩
      exact Bool.noConfusion (hoff.noncanonical.symm.trans hd.canonical)

/-- The code's test of presence, in terms of the page table. -/
theorem present_fresh_iff (hroot : PageAligned root) (va : Word) :
    (fresh mem root va).present mem = true ↔ Present mem root va := by
  obtain ⟨hw, hva⟩ := @fresh_walked mem root hroot va
  rw [present_iff hw, hva]

/-! ## User access -/

/-- The path admits the user when each of its entries does. -/
theorem permPath_user (va : Word) (d : Nat) :
    (permPath mem root (vaPath va d)).getLsbD 2 = true
      ↔ ∀ e, e < d → (levelEntry mem root va e).getLsbD 2 = true := by
  induction d with
  | zero =>
      rw [vaPath_zero, permPath]
      refine ⟨?_, fun _ => by decide⟩
      intro _ e he
      exact absurd he (Nat.not_lt_zero e)
  | succ d ih =>
      have hbit : (~~~ptePWU).getLsbD 2 = false := by decide
      rw [vaPath_succ, permPath, BitVec.getLsbD_and, BitVec.getLsbD_or, hbit, Bool.or_false,
        Bool.and_eq_true, ih]
      constructor
      · rintro ⟨habove, hlast⟩ e he
        rcases Nat.lt_succ_iff_lt_or_eq.mp he with hlt | rfl
        · exact habove e hlt
        · exact hlast
      · intro hall
        exact ⟨fun e he => hall e (Nat.lt_succ_of_lt he), hall d (Nat.lt_succ_self d)⟩

/-- `perm(PTE_P | PTE_U)` asks for bits 0 and 2. -/
theorem and_pteP_pteU_iff (x : Word) :
    x &&& (pteP ||| pteU) = pteP ||| pteU ↔ x.getLsbD 0 = true ∧ x.getLsbD 2 = true := by
  have hsplit : pteP ||| pteU = BitVec.twoPow 64 0 ||| BitVec.twoPow 64 2 := by decide
  rw [hsplit, BitVec.and_or_distrib_left, BitVec.and_twoPow, BitVec.and_twoPow]
  cases x.getLsbD 0 <;> cases x.getLsbD 2 <;> decide

/-- The code's test of the user's access. -/
theorem onPath_user_iff {d : Nat} {it : Vmiter} (h : OnPath mem root d it) :
    it.user mem = true ↔ (it.pep.read mem).getLsbD 0 = true
      ∧ ∀ e, e ≤ d → (levelEntry mem root it.va e).getLsbD 2 = true := by
  obtain ⟨t, ht, -⟩ := h.slot
  have hsplit : (∀ e, e ≤ d → (levelEntry mem root it.va e).getLsbD 2 = true)
      ↔ (it.pep.read mem).getLsbD 2 = true
        ∧ ∀ e, e < d → (levelEntry mem root it.va e).getLsbD 2 = true := by
    rw [h.read]
    constructor
    · intro hall
      exact ⟨hall d (Nat.le_refl d), fun e he => hall e (Nat.le_of_lt he)⟩
    · rintro ⟨hlast, habove⟩ e he
      rcases Nat.lt_or_eq_of_le he with hlt | rfl
      · exact habove e hlt
      · exact hlast
  rw [Vmiter.user, Vmiter.hasPerm, beq_iff_eq, and_pteP_pteU_iff, onPath_perms h, hsplit]
  by_cases hb : (it.pep.read mem).getLsbD 0 = true
  · rw [if_pos hb, BitVec.getLsbD_and, BitVec.getLsbD_and, h.perm, permPath_present ht,
      Bool.and_true, Bool.and_eq_true, permPath_user]
  · rw [if_neg hb]
    exact ⟨fun hc => absurd hc.1 (by decide), fun hc => absurd hc.1 hb⟩

/-- `user()` finds the mapping with `PTE_P` and `PTE_U` at every level, and
    then `pa()` is the address it maps to. -/
theorem userAt_iff {it : Vmiter} (h : Walked mem root it) (pa : Word) :
    UserAt mem root it.va pa ↔ it.user mem = true ∧ pa = it.pa mem := by
  rcases h with ⟨d, hon, hs⟩ | hoff
  · have hstop := stopsAt_of_onPath hon hs
    have hread : it.pep.read mem = levelEntry mem root it.va d := hon.read
    rw [onPath_user_iff hon, onPath_pa hon, hread, hon.lbits]
    constructor
    · rintro ⟨e, he, hbits, rfl⟩
      obtain rfl := hstop.unique he
      have hp := (hbits d (Nat.le_refl d)).1
      exact ⟨⟨hp, fun e' he' => (hbits e' he').2⟩, by rw [if_pos hp]⟩
    · rintro ⟨⟨hp, huser⟩, rfl⟩
      refine ⟨d, hstop, ?_, by rw [if_pos hp]⟩
      intro e he
      refine ⟨?_, huser e he⟩
      rcases Nat.lt_or_eq_of_le he with hlt | rfl
      · exact hstop.present_above hlt
      · exact hp
  · have hno : it.user mem = false := by
      rw [Vmiter.user, Vmiter.hasPerm, offPath_perms hoff]
      decide
    rw [hno]
    constructor
    · rintro ⟨d, hd, -⟩
      exact Bool.noConfusion (hoff.noncanonical.symm.trans hd.canonical)
    · rintro ⟨hc, -⟩
      cases hc

/-! ## The check for uninitialized memory -/

/-- The entry that maps `va` is in one of the last two levels and holds a
    frame at 4 GiB or above. -/
def Suspicious (mem : Mem) (root va : Word) : Prop :=
  ∃ d, StopsAt mem root va d ∧ 2 ≤ d
    ∧ 2 ^ 32 ≤ (levelEntry mem root va d &&& ptePAMask).toNat

/-- The code's test for a table that has never been filled in. -/
theorem uninitialized_iff {it : Vmiter} (h : Walked mem root it) :
    it.uninitialized mem = true ↔ Suspicious mem root it.va := by
  rw [Vmiter.uninitialized, Bool.and_eq_true, decide_eq_true_iff, decide_eq_true_iff,
    BitVec.le_def, show (0x100000000#64).toNat = 2 ^ 32 from rfl]
  rcases h with ⟨d, hon, hs⟩ | hoff
  · have hstop := stopsAt_of_onPath hon hs
    have hread : it.pep.read mem = levelEntry mem root it.va d := hon.read
    have hd := hon.depth
    have hlb : it.lbits < pageOffBits + 2 * pageIndexBits ↔ 2 ≤ d := by
      rw [hon.lbits]
      simp only [lbitsAt, pageOffBits, pageIndexBits]
      omega
    rw [hread, hlb]
    constructor
    · rintro ⟨hbig, h2⟩
      exact ⟨d, hstop, h2, hbig⟩
    · rintro ⟨e, he, h2, hbig⟩
      rw [hstop.unique he]
      exact ⟨hbig, h2⟩
  · rw [hoff.lbits]
    constructor
    · rintro ⟨-, hlb⟩
      exact absurd hlb (by decide)
    · rintro ⟨d, hd, -⟩
      exact Bool.noConfusion (hoff.noncanonical.symm.trans hd.canonical)

/-- The constructor panics at a suspicious entry, and nowhere else. -/
theorem new_error_iff (hroot : PageAligned root) (va : Word) :
    (∃ f, Vmiter.new mem root va = .error f) ↔ Suspicious mem root va := by
  obtain ⟨hw, hva⟩ := @fresh_walked mem root hroot va
  have hun := uninitialized_iff hw
  rw [hva] at hun
  rw [new_eq, Vmiter.checked, ← hun]
  by_cases hb : (fresh mem root va).uninitialized mem = true
  · rw [if_pos hb]
    exact ⟨fun _ => hb, fun _ => ⟨_, rfl⟩⟩
  · rw [if_neg hb]
    refine ⟨?_, fun hc => absurd hc hb⟩
    rintro ⟨f, hf⟩
    cases hf

/-- What the constructor returns otherwise. -/
theorem new_fresh {va : Word} {it : Vmiter} (h : Vmiter.new mem root va = .ok it) :
    it = fresh mem root va := by
  rw [new_eq, Vmiter.checked] at h
  by_cases hb : (fresh mem root va).uninitialized mem = true
  · rw [if_pos hb] at h
    cases h
  · rw [if_neg hb] at h
    exact (Except.ok.inj h).symm

end VmLeaf
