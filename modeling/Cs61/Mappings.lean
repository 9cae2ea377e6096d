import Cs61.TryMap

/-! # `try_map` and the mappings — what a call changes, and what it leaves alone

    * `tryMap_maps`: a successful call with `PTE_P` maps the page it was asked
      to, with the permissions it was asked for;
    * `tryMap_frame`: no call changes the mapping of another page, and a failed
      call changes none;
    * `tryMap_unmaps_iff`: when a successful call without `PTE_P` has really
      removed the mapping. -/

namespace Mappings

open PageTable PostOrder VmIter WordMasks VmWalk VmQueries TableEdits TryMap
open Vmiter (mapPa lbitsMask)

variable {mem : Mem} {root va : Word} {kalloc : Vmiter.Kalloc}

/-! ## Permissions and addresses of the written entry -/

/-- A non-negative `int` is extended with zeros. -/
theorem signExtend_flags {perm : BitVec 32} (h : perm.toNat < 0x1000) :
    perm.signExtend 64 = perm.setWidth 64 := by
  refine BitVec.signExtend_eq_setWidth_of_msb_false ?_
  rw [BitVec.msb_eq_decide]
  exact decide_eq_false (by omega)

/-- The assertion against `perm_` makes the walk keep every requested bit. -/
theorem entry_and_perm {pa perm f : Word} (hpa : PageAligned pa) (hperm : perm.toNat < 0x1000)
    (hassert : perm &&& ~~~(Vmiter.initialPerm &&& (f ||| ~~~ptePWU)) &&& ptePWU = 0#64) :
    (pa ||| perm) &&& (Vmiter.initialPerm &&& (f ||| ~~~ptePWU)) = perm := by
  have hlow : Vmiter.initialPerm = lowMask 64 12 := by decide
  have hpwu : ptePWU = lowMask 64 3 := by decide
  refine BitVec.eq_of_getLsbD_eq ?_
  intro i hi
  have hbit := congrArg (fun x => x.getLsbD i) hassert
  simp only [hlow, hpwu, BitVec.getLsbD_and, BitVec.getLsbD_not, BitVec.getLsbD_or,
    getLsbD_lowMask, BitVec.getLsbD_zero, hi, decide_true, Bool.true_and] at hbit ⊢
  by_cases h12 : i < 12
  · rw [getLsbD_of_aligned hpa h12, Bool.false_or, decide_eq_true h12, Bool.true_and]
    rw [decide_eq_true h12, Bool.true_and] at hbit
    by_cases h3 : i < 3
    · -- one of `PTE_P`, `PTE_W`, `PTE_U`: the assertion decides
      rw [decide_eq_true h3] at hbit ⊢
      cases hp : perm.getLsbD i with
      | false => exact Bool.false_and _
      | true =>
          rw [hp] at hbit
          cases hf : f.getLsbD i with
          | true => rfl
          | false => rw [hf] at hbit; exact absurd hbit (by decide)
    · rw [decide_eq_false h3, Bool.not_false, Bool.or_true, Bool.and_true]
  · have hp : perm.getLsbD i = false := by
      rw [← BitVec.testBit_toNat]
      refine Nat.testBit_lt_two_pow (Nat.lt_of_lt_of_le hperm ?_)
      exact Nat.pow_le_pow_right (n := 2) (by omega) (show 12 ≤ i by omega)
    rw [hp, decide_eq_false h12, Bool.false_and, Bool.and_false]

/-- Offsets within a page. -/
theorem and_lbitsMask_page {off : Word} (hva : PageAligned va) (hoff : off.toNat < 4096) :
    (va + off) &&& lbitsMask 12 = off ∧ (va + off).toNat / 4096 = va.toNat / 4096 := by
  have hva' : va.toNat % 4096 = 0 := hva
  have hadd : (va + off).toNat = va.toNat + off.toNat := by
    have := va.isLt
    rw [BitVec.toNat_add]
    omega
  refine ⟨BitVec.eq_of_toNat_eq ?_, by omega⟩
  rw [toNat_and_lbitsMask _ (by omega), hadd]
  omega

/-! ## The constructor on the new table -/

/-- The assertion looks at one entry. -/
theorem checked_congr {mem mem' : Mem} {it : Vmiter} (h : it.pep.read mem' = it.pep.read mem) :
    it.checked mem' = it.checked mem := by
  rw [Vmiter.checked, Vmiter.checked, Vmiter.uninitialized, Vmiter.uninitialized, h]

/-- `new` on a well-formed table gives the walked iterator. -/
theorem eq_fresh_of_new {it : Vmiter} (hroot : PageAligned root) (hlow : PhysLow mem root)
    (h : Vmiter.new mem root va = .ok it) : it = fresh mem root va :=
  (Except.ok.inj ((new_ok hroot hlow va).symm.trans h)).symm

/-- The check passes when what was read is a low address. -/
theorem checked_ok_iff {it : Vmiter} (hlb : it.lbits = pageOffBits) :
    (∃ w, it.checked mem = .ok w) ↔ (it.pep.read mem &&& ptePAMask).toNat < 2 ^ 32 := by
  have hlevel : decide (it.lbits < pageOffBits + 2 * pageIndexBits) = true := by
    rw [hlb]
    decide
  have hbound : (0x100000000#64).toNat = 2 ^ 32 := rfl
  rw [Vmiter.checked, Vmiter.uninitialized, hlevel, Bool.and_true]
  by_cases hbig : 0x100000000#64 ≤ it.pep.read mem &&& ptePAMask
  · rw [if_pos (decide_eq_true hbig)]
    rw [BitVec.le_def, hbound] at hbig
    refine ⟨?_, fun h => absurd h (by omega)⟩
    rintro ⟨w, h⟩
    cases h
  · rw [if_neg (by rw [decide_eq_true_iff]; exact hbig)]
    rw [BitVec.le_def, hbound] at hbig
    exact ⟨fun _ => by omega, fun _ => ⟨it, rfl⟩⟩

/-- The assertion changes nothing. -/
theorem checked_eq {it w : Vmiter} (h : it.checked mem = .ok w) : w = it := by
  rw [Vmiter.checked] at h
  split at h
  · cases h
  · exact (Except.ok.inj h).symm

/-- `vmiter(pt, va)` translates alike in both memories. -/
def Unchanged (mem mem' : Mem) (root va : Word) : Prop :=
  ∃ w w', Vmiter.new mem root va = .ok w ∧ Vmiter.new mem' root va = .ok w'
    ∧ w'.pa mem' = w.pa mem ∧ w'.perms mem' = w.perms mem

/-- A mapping that is the same is seen as the same. -/
theorem unchanged_of_sameMapping {mem' : Mem} (hroot : PageAligned root)
    (hlow : PhysLow mem root) (hlow' : PhysLow mem' root) (h : SameMapping mem mem' root va) :
    Unchanged mem mem' root va :=
  ⟨_, _, new_ok hroot hlow va, new_ok hroot hlow' va, h.pa, h.perms⟩

/-- Writing one entry does not change the mapping of another page. -/
theorem unchanged_of_writeLeaf {mem₀ : Mem} {p : List Nat} {i : Nat} {t : Word} {it : Vmiter}
    (h : LeafSite mem root p i t) (v : Word) (hon : OnPath mem root 3 it)
    (hpath : vaPath it.va 4 = i :: p) (hother : va.toNat / 4096 ≠ it.va.toNat / 4096)
    (hlow : PhysLow mem root) (hun : Unchanged mem₀ mem root va) :
    Unchanged mem₀ (writeLeaf mem t i v) root va := by
  obtain ⟨w, w', hw, hw', hpa, hperms⟩ := hun
  obtain ⟨hfresh, hread⟩ := writeLeaf_fresh_other h v hon.canonical hpath hother
  obtain rfl := eq_fresh_of_new h.tree.aligned hlow hw'
  have hsame : SameMapping mem (writeLeaf mem t i v) root va :=
    SameMapping.of_read hfresh hread
  refine ⟨w, fresh (writeLeaf mem t i v) root va, hw, ?_, hsame.pa.trans hpa,
    hsame.perms.trans hperms⟩
  rw [new_eq, hfresh, checked_congr hread]
  exact hw'

/-! ## Mapping -/

section Call

variable {it : Vmiter} {r : Vmiter.Mapped} {pa : Word} {perm : BitVec 32}

/-- The outcomes of a call that returned, from a freshly constructed iterator. -/
theorem tryMap_returned (hwf : WellFormed mem root) (hc : vaIsCanonical va = true)
    (hk : KallocFresh kalloc 0 mem root) (hit : Vmiter.new mem root va = .ok it)
    (hr : it.tryMap kalloc mem pa perm = .ok r) :
    it.va = va ∧ Walked mem root it ∧ ∃ g,
      it.checkMap (mapPa pa (perm.signExtend 64)) (perm.signExtend 64) = .ok ()
        ∧ GrowPost mem root (perm.signExtend 64) it g
        ∧ Outcome root (mapPa pa (perm.signExtend 64) ||| perm.signExtend 64) g r := by
  obtain rfl := eq_fresh_of_new hwf.aligned hwf.low hit
  obtain ⟨hw, hva⟩ : Walked mem root (fresh mem root va) ∧ _ := fresh_walked hwf.aligned va
  refine ⟨hva, hw, ?_⟩
  rcases tryMap_cases pa hwf.toPageTree hw (Or.inl (by rw [hva]; exact hc)) hk with
    ⟨e, d, herr⟩ | ⟨g, r', hr', hcheck, post, hout⟩
  · rw [hr] at herr
    cases herr
  · obtain rfl := Except.ok.inj (hr.symm.trans hr')
    exact ⟨g, hcheck, post, hout⟩

/-- No level is below that of small pages. -/
theorem Walked.lbits_ge (hw : Walked mem root it) : pageOffBits ≤ it.lbits := by
  rcases hw with ⟨d, hon, -⟩ | hoff
  · rw [hon.lbits, lbitsAt]
    exact Nat.le_add_right _ _
  · rw [hoff.lbits]
    decide

/-- With permissions to set, the loop does not end above the last level. -/
theorem GrowPost.perm_eq_zero {perm : Word} {g : Vmiter.Grown} (post : GrowPost mem root perm it g)
    (hlinked : g.linked = true) (hlb : g.it.lbits ≠ pageOffBits) : perm = 0#64 := by
  by_contra hne
  have hstop := post.bottom hlinked
  have hge := Walked.lbits_ge post.walked
  rw [grows_iff.mpr ⟨by omega, hne⟩] at hstop
  exact Bool.noConfusion hstop

/-- **A SUCCESSFUL MAP MAPS**: every address of the page translates to the
    requested frame, with exactly the requested permissions. -/
theorem tryMap_maps (hwf : WellFormed mem root) (hc : vaIsCanonical va = true)
    (hpa : PageAligned pa) (hlow : pa.toNat < 2 ^ 32) (hperm : perm.toNat < 0x1000)
    (hP : perm.getLsbD 0 = true) (hk : KallocFresh kalloc 0 mem root)
    (hit : Vmiter.new mem root va = .ok it) (hr : it.tryMap kalloc mem pa perm = .ok r)
    (hret : r.ret = 0) (off : Word) (hoff : off.toNat < 4096) :
    ∃ w, Vmiter.new r.mem root (va + off) = .ok w
      ∧ w.pa r.mem = pa + off ∧ w.perms r.mem = perm.setWidth 64 := by
  obtain ⟨rfl, hw, g, hcheck, post, hout⟩ := tryMap_returned hwf hc hk hit hr
  rw [signExtend_flags hperm] at hcheck post hout
  have hP' : (perm.setWidth 64).getLsbD 0 = true := by
    rw [BitVec.getLsbD_setWidth, hP]
    rfl
  have hne : perm.setWidth 64 ≠ 0#64 := by
    intro h0
    rw [h0] at hP'
    exact absurd hP' (by decide)
  -- so `perm` and `pa` share no bit, and the entry holds both
  have hsmall : (perm.setWidth 64).toNat < 0x1000 := by
    rw [BitVec.toNat_setWidth]
    omega
  have hmapPa : mapPa pa (perm.setWidth 64) = pa := by
    rw [mapPa, if_neg]
    rw [Bool.and_eq_true, beq_iff_eq, beq_iff_eq]
    exact fun h => hne h.2
  rw [hmapPa] at hcheck hout
  obtain ⟨hva, -, -, hassert⟩ := checkMap_ok hcheck
  cases hout with
  | failed _ heq =>
      rw [heq] at hret
      exact absurd hret (show ¬ (-1 : Int) = 0 by decide)
  | nothing hlinked hlb _ =>
      exact absurd (GrowPost.perm_eq_zero post hlinked hlb) hne
  | wrote t _ _ hon hsite heq =>
      obtain ⟨hmask, hpage⟩ := and_lbitsMask_page hva hoff
      have hsame : (it.va + off).toNat / 4096 = g.it.va.toNat / 4096 := by rw [post.va, hpage]
      obtain ⟨hon', hread, hperm'⟩ := writeLeaf_fresh_same hsite (pa ||| perm.setWidth 64) hon
        rfl hsame
      have haddr : (pa ||| perm.setWidth 64) &&& ptePAMask = pa :=
        or_and_paMask hpa (by omega) hsmall
      have hbit : (pa ||| perm.setWidth 64).getLsbD 0 = true := by
        rw [BitVec.getLsbD_or, hP', Bool.or_true]
      have hva' : (fresh r.mem root (it.va + off)).va = it.va + off := fresh_va hwf.aligned _
      rw [heq] at hva' ⊢
      dsimp only at hva' ⊢
      obtain ⟨w, hnew⟩ := (checked_ok_iff hon'.lbits).mpr (by rw [hread, haddr]; exact hlow)
      obtain rfl := checked_eq hnew
      refine ⟨_, hnew, ?_, ?_⟩
      · rw [onPath_pa hon', hread, if_pos hbit, hva', hon'.lbits]
        show frame (pa ||| perm.setWidth 64) 12 + ((it.va + off) &&& lbitsMask 12) = pa + off
        rw [hmask, frame, if_neg (by decide), haddr]
      · rw [onPath_perms hon', hread, if_pos hbit, hperm', hon.perm, permPath_eq]
        refine entry_and_perm hpa hsmall ?_
        rw [← permPath_eq, ← hon.perm, post.permEq]
        exact hassert

/-- A call on `smallTable`, seen through what it returns. -/
theorem tryMap_small (va pa : Word) (perm : BitVec 32) {ret : Int}
    (h : ((Vmiter.new smallTable 0x1000#64 va).bind fun it =>
      (it.tryMap spareKalloc smallTable pa perm).map Vmiter.Mapped.ret) = .ok ret) :
    ∃ it r, Vmiter.new smallTable 0x1000#64 va = .ok it
      ∧ it.tryMap spareKalloc smallTable pa perm = .ok r ∧ r.ret = ret := by
  obtain ⟨it, hit, h⟩ := bind_eq_ok.mp h
  cases hr : it.tryMap spareKalloc smallTable pa perm with
  | error f => rw [hr] at h; cases h
  | ok r => rw [hr] at h; exact ⟨it, r, hit, hr, Except.ok.inj h⟩

/-- Mapping below an empty root entry: three pages are linked. -/
theorem tryMap_maps_small :
    ∃ it r w, Vmiter.new smallTable 0x1000#64 0x8000000000#64 = .ok it
      ∧ it.tryMap spareKalloc smallTable 0x9000#64 5#32 = .ok r ∧ r.ret = 0
      ∧ Vmiter.new r.mem 0x1000#64 (0x8000000000#64 + 0x123#64) = .ok w
      ∧ w.pa r.mem = 0x9000#64 + 0x123#64 ∧ w.perms r.mem = (5#32).setWidth 64 := by
  obtain ⟨it, r, hit, hr, hret⟩ := tryMap_small 0x8000000000#64 0x9000#64 5#32 rfl
  obtain ⟨w, hnew, hpa, hperms⟩ := tryMap_maps smallTable_wellFormed (by decide)
    (show PageAligned 0x9000#64 from rfl) (by decide) (by decide) (by decide) spareKalloc_fresh hit hr hret 0x123#64 (by decide)
  exact ⟨it, r, w, hit, hr, hret, hnew, hpa, hperms⟩

/-! ## Other pages -/

/-- **NO OTHER MAPPING CHANGES**: addresses of other pages keep translation and
    permissions, and so does the page itself when the call fails. -/
theorem tryMap_frame (hwf : WellFormed mem root) (hc : vaIsCanonical va = true)
    (hk : KallocFresh kalloc 0 mem root) (hit : Vmiter.new mem root va = .ok it)
    (hr : it.tryMap kalloc mem pa perm = .ok r) (va' : Word)
    (hother : va'.toNat / 4096 ≠ va.toNat / 4096 ∨ r.ret = -1) :
    Unchanged mem r.mem root va' := by
  obtain ⟨rfl, hw, g, -, post, hout⟩ := tryMap_returned hwf hc hk hit hr
  have hlow := post.low hwf.low
  -- linking empty pages changes no mapping
  have hgrown : Unchanged mem g.mem root va' :=
    unchanged_of_sameMapping hwf.aligned hwf.low hlow (post.same va')
  cases hout with
  | failed _ heq => rw [heq]; exact hgrown
  | nothing _ _ heq => rw [heq]; exact hgrown
  | wrote t _ _ hon hsite heq =>
      rcases hother with hpage | hret
      · rw [heq]
        rw [← post.va] at hpage
        exact unchanged_of_writeLeaf hsite _ hon rfl hpage hlow hgrown
      · rw [heq] at hret
        exact absurd hret (show ¬ (0 : Int) = -1 by decide)

theorem tryMap_frame_small :
    ∃ it r, Vmiter.new smallTable 0x1000#64 0x8000000000#64 = .ok it
      ∧ it.tryMap spareKalloc smallTable 0x9000#64 5#32 = .ok r
      ∧ Unchanged smallTable r.mem 0x1000#64 0x8000001000#64 := by
  obtain ⟨it, r, hit, hr, -⟩ := tryMap_small 0x8000000000#64 0x9000#64 5#32 rfl
  exact ⟨it, r, hit, hr, tryMap_frame smallTable_wellFormed (by decide) spareKalloc_fresh hit hr
    0x8000001000#64 (Or.inl (by decide))⟩

/-! ## Unmapping -/

/-- When an unmapping removes the mapping: the walk does not end at a present
    entry above the last level, and what is written holds no high address. -/
def Unmaps (mem : Mem) (it : Vmiter) (pa perm : Word) : Prop :=
  (it.present mem = true → it.lbits = pageOffBits)
    ∧ (it.lbits = pageOffBits ∨ perm ≠ 0#64 →
        ((mapPa pa perm ||| perm) &&& ptePAMask).toNat < 2 ^ 32)

/-- An iterator that is not present answers -1 and 0. -/
theorem absent_iff (hw : Walked mem root it) :
    (it.pa mem = ~~~(0#64) ∧ it.perms mem = 0#64) ↔ ¬ it.present mem = true := by
  rw [walked_present_iff_pa hw, not_not]
  refine ⟨fun h => h.1, fun hpa => ⟨hpa, ?_⟩⟩
  rcases hw with ⟨d, hon, hstop⟩ | hoff
  · have hno : ¬ (it.pep.read mem).getLsbD 0 = true := by
      rw [← onPath_present_iff hon, walked_present_iff_pa (Or.inl ⟨d, hon, hstop⟩)]
      exact fun h => h hpa
    rw [onPath_perms hon, if_neg hno]
  · exact offPath_perms hoff

/-- When the loop is at work, the entry it starts from is not present. -/
theorem GrowPost.not_present {perm : Word} {g : Vmiter.Grown}
    (hw : Walked mem root it) (post : GrowPost mem root perm it g) (hg : grows perm it = true) :
    ¬ it.present mem = true := by
  have habs := post.absent hg
  rcases hw with ⟨d, hon, -⟩ | hoff
  · rw [onPath_present_iff hon, habs]
    exact Bool.false_ne_true
  · rw [Vmiter.present, Vmiter.hasPerm, offPath_perms hoff]
    decide

/-- **UNMAPPING**: a successful call without `PTE_P` leaves the address
    unmapped exactly when `Unmaps` holds before the call. -/
theorem tryMap_unmaps_iff (hwf : WellFormed mem root) (hc : vaIsCanonical va = true)
    (hP : perm.getLsbD 0 = false) (hk : KallocFresh kalloc 0 mem root)
    (hit : Vmiter.new mem root va = .ok it) (hr : it.tryMap kalloc mem pa perm = .ok r)
    (hret : r.ret = 0) :
    (∃ w, Vmiter.new r.mem root va = .ok w ∧ w.pa r.mem = ~~~(0#64) ∧ w.perms r.mem = 0#64)
      ↔ Unmaps mem it pa (perm.signExtend 64) := by
  obtain ⟨rfl, hw, g, hcheck, post, hout⟩ := tryMap_returned hwf hc hk hit hr
  have hP' : (perm.signExtend 64).getLsbD 0 = false := by
    rw [BitVec.getLsbD_signExtend, if_pos (by omega), hP]
    rfl
  generalize perm.signExtend 64 = perm at hcheck post hout hP' ⊢
  have hge := Walked.lbits_ge hw
  -- without permissions the loop links nothing
  have hidle : perm = 0#64 → g = { linked := true, mem := mem, it := it } := by
    intro h0
    refine post.idle (Bool.eq_false_iff.mpr ?_)
    rw [Ne, grows_iff]
    exact fun h => h.2 h0
  cases hout with
  | failed _ heq =>
      rw [heq] at hret
      exact absurd hret (show ¬ (-1 : Int) = 0 by decide)
  | nothing hlinked hlb heq =>
      -- only an unmapping above the last level ends here, and it changes nothing
      have h0 := GrowPost.perm_eq_zero post hlinked hlb
      rw [hidle h0] at hlb heq
      rw [heq]
      have hlhs : (∃ w, Vmiter.new mem root it.va = .ok w ∧ w.pa mem = ~~~(0#64)
          ∧ w.perms mem = 0#64) ↔ ¬ it.present mem = true := by
        rw [← absent_iff hw]
        refine ⟨?_, fun h => ⟨it, hit, h⟩⟩
        rintro ⟨w, hnew, hw⟩
        obtain rfl := Except.ok.inj (hit.symm.trans hnew)
        exact hw
      refine hlhs.trans ⟨fun h => ⟨fun hp => absurd hp h, ?_⟩, fun h hp => hlb (h.1 hp)⟩
      rintro (h12 | hne)
      · exact absurd h12 hlb
      · exact absurd h0 hne
  | wrote t _ hlb hon hsite heq =>
      obtain ⟨-, -, hpabit, -⟩ := checkMap_ok hcheck
      have hbit : ¬ (mapPa pa perm ||| perm).getLsbD 0 = true := by
        rw [BitVec.getLsbD_or, hpabit hP', hP']
        exact Bool.false_ne_true
      have hva : g.it.va = it.va := post.va
      obtain ⟨hon', hread, -⟩ := writeLeaf_fresh_same hsite (mapPa pa perm ||| perm) hon rfl
        (show it.va.toNat / 4096 = g.it.va.toNat / 4096 by rw [hva])
      have hwritten : it.lbits = pageOffBits ∨ perm ≠ 0#64 := by
        by_cases h0 : perm = 0#64
        · rw [hidle h0] at hlb
          exact Or.inl hlb
        · exact Or.inr h0
      have hpresent : it.present mem = true → it.lbits = pageOffBits := by
        -- above the last level the loop asserts that the entry is not present
        intro hp
        by_contra hlb'
        refine GrowPost.not_present hw post (grows_iff.mpr ⟨by omega, ?_⟩) hp
        exact hwritten.resolve_left hlb'
      have hlhs : (∃ w, Vmiter.new r.mem root it.va = .ok w ∧ w.pa r.mem = ~~~(0#64)
          ∧ w.perms r.mem = 0#64)
          ↔ ((mapPa pa perm ||| perm) &&& ptePAMask).toNat < 2 ^ 32 := by
        rw [heq, ← hread, ← checked_ok_iff hon'.lbits, hread, ← new_eq]
        refine ⟨fun ⟨w, h, _⟩ => ⟨w, h⟩, fun ⟨w, h⟩ => ⟨w, h, ?_⟩⟩
        have hw' : w = fresh _ root it.va := checked_eq h
        dsimp only
        rw [hw', onPath_pa hon', onPath_perms hon', hread, if_neg hbit, if_neg hbit]
        exact ⟨rfl, rfl⟩
      exact hlhs.trans ⟨fun h => ⟨hpresent, fun _ => h⟩, fun h => h.2 hwritten⟩

theorem tryMap_unmaps_iff_small :
    ∃ it r, Vmiter.new smallTable 0x1000#64 0x1000#64 = .ok it
      ∧ it.tryMap spareKalloc smallTable 0#64 0#32 = .ok r
      ∧ ((∃ w, Vmiter.new r.mem 0x1000#64 0x1000#64 = .ok w ∧ w.pa r.mem = ~~~(0#64)
            ∧ w.perms r.mem = 0#64)
          ↔ Unmaps smallTable it 0#64 ((0#32).signExtend 64)) := by
  obtain ⟨it, r, hit, hr, hret⟩ := tryMap_small 0x1000#64 0#64 0#32 rfl
  exact ⟨it, r, hit, hr, tryMap_unmaps_iff smallTable_wellFormed (by decide) (by decide)
    spareKalloc_fresh hit hr hret⟩

/-- Unmapping the first page of a 2 MiB page is reported as done, and is not. -/
theorem tryMap_keeps_large_page :
    ∃ it r, WellFormed smallTable 0x1000#64 ∧ vaIsCanonical 0x200000#64 = true
      ∧ KallocFresh spareKalloc 0 smallTable 0x1000#64
      ∧ Vmiter.new smallTable 0x1000#64 0x200000#64 = .ok it
      ∧ it.tryMap spareKalloc smallTable (~~~(0#64)) 0#32 = .ok r ∧ r.ret = 0
      ∧ ¬ ∃ w, Vmiter.new r.mem 0x1000#64 0x200000#64 = .ok w ∧ w.pa r.mem = ~~~(0#64)
          ∧ w.perms r.mem = 0#64 := by
  have hit : Vmiter.new smallTable 0x1000#64 0x200000#64
      = .ok { pt := 0x1000#64, pep := .slot 0x3008#64, lbits := 21, perm := 0xFFF#64,
              va := 0x200000#64 } := rfl
  refine ⟨_, { ret := 0, mem := smallTable, it := _ }, smallTable_wellFormed, by decide,
    spareKalloc_fresh, hit, rfl, rfl, ?_⟩
  rintro ⟨w, hnew, hpa, -⟩
  obtain rfl := Except.ok.inj (hit.symm.trans hnew)
  exact absurd hpa (by decide)

end Call

end Mappings
