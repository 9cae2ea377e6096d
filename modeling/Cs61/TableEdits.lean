import Cs61.VmQueries

/-! # Editing one entry of a page table

    `try_map` changes a page table in two ways: it links a cleared page into an
    entry that was not present, or it writes an entry of the last level.  Both
    change one entry `(p, i)`, which no walk goes through, and leave every other
    entry as it was: `EditAt`.  Walks that do not stop at that entry are then
    the same in both memories. -/

namespace TableEdits

open PageTable PostOrder VmIter WordMasks VmWalk VmQueries

variable {mem mem' : Mem} {root : Word}

/-! ## One edited entry -/

/-- `mem'` differs from `mem`, on the pages of the table, at entry `i` of the
    page at `p` at most, and no page of `mem` is reached through that entry. -/
structure EditAt (mem mem' : Mem) (root : Word) (p : List Nat) (i : Nat) : Prop where
  agrees : ∀ q s j, IsPath 512 3 q → table mem root q = some s → j < 512 →
    ¬ (q = p ∧ j = i) →
    mem' (entryPtr s (BitVec.ofNat 64 j)) = mem (entryPtr s (BitVec.ofNat 64 j))
  apart : ∀ q s, IsPath 512 3 q → table mem root q = some s → ¬ (i :: p) <:+ q

section Edit

variable {p : List Nat} {i : Nat}

/-- Every page stays where it was. -/
theorem EditAt.table (h : EditAt mem mem' root p i) {q : List Nat} {s : Word}
    (hq : IsPath 512 3 q) (hs : table mem root q = some s) : table mem' root q = some s := by
  induction q generalizing s with
  | nil => exact hs
  | cons j q ih =>
      have hq' := hq.tail
      obtain ⟨r, hr, hc⟩ := node_tail (child mem) hs
      have hne : ¬ (q = p ∧ j = i) := by
        rintro ⟨rfl, rfl⟩
        exact h.apart _ _ hq hs (List.suffix_refl _)
      rw [PageTable.table, node_cons_of (child mem') (ih hq' hr), child,
        h.agrees q r j hq' hr (hq.2 j List.mem_cons_self) hne]
      exact hc

/-- A page of the edited table is an old page, or is reached through the edit. -/
theorem EditAt.table_inv (h : EditAt mem mem' root p i) {q : List Nat} {s : Word}
    (hq : IsPath 512 3 q) (hs : PageTable.table mem' root q = some s) :
    PageTable.table mem root q = some s ∨ (i :: p) <:+ q := by
  induction q generalizing s with
  | nil => exact Or.inl hs
  | cons j q ih =>
      have hq' := hq.tail
      obtain ⟨r, hr, hc⟩ := node_tail (child mem') hs
      rcases ih hq' hr with hold | hsuf
      · by_cases hne : q = p ∧ j = i
        · obtain ⟨rfl, rfl⟩ := hne
          exact Or.inr (List.suffix_refl _)
        · refine Or.inl ?_
          rw [PageTable.table, node_cons_of (child mem) hold, child,
            ← h.agrees q r j hq' hold (hq.2 j List.mem_cons_self) hne]
          exact hc
      · exact Or.inr (hsuf.trans (List.suffix_cons j q))

/-- Every entry but the edited one stays. -/
theorem EditAt.entryAt (h : EditAt mem mem' root p i) {q : List Nat} {s : Word} {j : Nat}
    (hq : IsPath 512 3 q) (hs : PageTable.table mem root q = some s) (hj : j < 512)
    (hne : ¬ (q = p ∧ j = i)) : entryAt mem' root q j = entryAt mem root q j := by
  rw [entryAt_of (h.table hq hs), entryAt_of hs]
  exact h.agrees q s j hq hs hj hne

/-- The permissions accumulated on the way to an old page are the same. -/
theorem EditAt.permPath (h : EditAt mem mem' root p i) {q : List Nat} {s : Word}
    (hq : IsPath 512 3 q) (hs : PageTable.table mem root q = some s) :
    permPath mem' root q = permPath mem root q := by
  induction q generalizing s with
  | nil => rfl
  | cons j q ih =>
      have hq' := hq.tail
      obtain ⟨r, hr, -⟩ := node_tail (child mem) hs
      have hne : ¬ (q = p ∧ j = i) := by
        rintro ⟨rfl, rfl⟩
        exact h.apart _ _ hq hs (List.suffix_refl _)
      rw [VmWalk.permPath, VmWalk.permPath, ih hq' hr,
        h.entryAt hq' hr (hq.2 j List.mem_cons_self) hne]

/-- An iterator on its path stays on it. -/
theorem EditAt.onPath (h : EditAt mem mem' root p i) {d : Nat} {it : Vmiter}
    (hon : OnPath mem root d it) : OnPath mem' root d it := by
  obtain ⟨t, ht, hpep⟩ := hon.slot
  have hq : IsPath 512 3 (vaPath it.va d) := (isPath_vaPath it.va d).mono hon.depth
  exact ⟨hon.pt, hon.depth, hon.canonical, hon.lbits, ⟨t, h.table hq ht, hpep⟩,
    hon.perm.trans (h.permPath hq ht).symm⟩

/-- **FRAME**: a walk that does not stop at the edited entry is unchanged. -/
theorem EditAt.fresh (h : EditAt mem mem' root p i) (hroot : PageAligned root) {va : Word}
    (hne : ∀ d, OnPath mem root d (fresh mem root va) → vaPath va (d + 1) ≠ i :: p) :
    fresh mem' root va = fresh mem root va
      ∧ (fresh mem root va).pep.read mem' = (fresh mem root va).pep.read mem := by
  obtain ⟨hw, hva⟩ : Walked mem root (VmWalk.fresh mem root va) ∧ _ := fresh_walked hroot va
  rcases hw with ⟨d, hon, hstop⟩ | hoff
  · have hon' := h.onPath hon
    have hread : (VmWalk.fresh mem root va).pep.read mem'
        = (VmWalk.fresh mem root va).pep.read mem := by
      obtain ⟨t, ht, -⟩ := hon.slot
      rw [hon'.read, hon.read]
      refine h.entryAt ((isPath_vaPath _ d).mono hon.depth) ht (idxAt_lt _ _) ?_
      rintro ⟨hp, hi⟩
      refine hne d hon ?_
      rw [vaPath_succ, ← hva, hp, hi]
    have hstop' : (VmWalk.fresh mem root va).descends mem' = false := by
      rw [Vmiter.descends, hread]
      exact hstop
    have heq := hon'.eq_fresh hroot hstop'
    rw [hva] at heq
    exact ⟨heq.symm, hread⟩
  · have heq := Walked.eq_fresh hroot (show Walked mem' root _ from Or.inr hoff)
    rw [hva] at heq
    refine ⟨heq.symm, ?_⟩
    rw [hoff.pep]
    rfl

end Edit

/-- An address is translated alike, with the same permissions, in both memories. -/
structure SameMapping (mem mem' : Mem) (root va : Word) : Prop where
  pa : (fresh mem' root va).pa mem' = (fresh mem root va).pa mem
  perms : (fresh mem' root va).perms mem' = (fresh mem root va).perms mem

theorem SameMapping.refl (mem : Mem) (root va : Word) : SameMapping mem mem root va :=
  ⟨rfl, rfl⟩

/-- What two edits keep, both keep. -/
theorem SameMapping.trans {mem'' : Mem} {va : Word} (h : SameMapping mem mem' root va)
    (h' : SameMapping mem' mem'' root va) : SameMapping mem mem'' root va :=
  ⟨h'.pa.trans h.pa, h'.perms.trans h.perms⟩

/-- `pa()` and `perm()` look at the memory through `*pep_` only. -/
theorem SameMapping.of_read {va : Word} (h : fresh mem' root va = fresh mem root va)
    (hread : (fresh mem root va).pep.read mem' = (fresh mem root va).pep.read mem) :
    SameMapping mem mem' root va := by
  constructor
  · rw [h, Vmiter.pa, Vmiter.pa, hread]
  · rw [h, Vmiter.perms, Vmiter.perms, hread]

/-- The two ways an address can have no mapping. -/
theorem SameMapping.of_absent {d e : Nat} {va : Word}
    (h : OnPath mem root d (fresh mem root va))
    (habs : ((fresh mem root va).pep.read mem).getLsbD 0 = false)
    (h' : OnPath mem' root e (fresh mem' root va))
    (habs' : ((fresh mem' root va).pep.read mem').getLsbD 0 = false) :
    SameMapping mem mem' root va := by
  have hno : ¬ ((fresh mem root va).pep.read mem).getLsbD 0 = true := by
    rw [habs]; exact Bool.false_ne_true
  have hno' : ¬ ((fresh mem' root va).pep.read mem').getLsbD 0 = true := by
    rw [habs']; exact Bool.false_ne_true
  constructor
  · rw [onPath_pa h, onPath_pa h', if_neg hno, if_neg hno']
  · rw [onPath_perms h, onPath_perms h', if_neg hno, if_neg hno']

/-! ## Linking a cleared page -/

/-- A page that `kalloc` may hand out: not a page of the table. -/
structure FreshPage (mem : Mem) (root pg : Word) : Prop where
  aligned : PageAligned pg
  low : pg.toNat < 2 ^ 32
  unused : ∀ q, IsPath 512 3 q → table mem root q ≠ some pg

/-- Entry `i` of page `t` made to point to the cleared page `pg`. -/
def linkPage (mem : Mem) (t : Word) (i : Nat) (pg : Word) : Mem :=
  Function.update (Vmiter.zeroPage mem pg) (entryPtr t (BitVec.ofNat 64 i))
    (pg ||| pteP ||| pteW ||| pteU)

/-- Reading after a page has been cleared. -/
theorem zeroPage_read {pg s : Word} {j : Nat} (hpg : PageAligned pg) (hs : PageAligned s)
    (hj : j < 512) :
    Vmiter.zeroPage mem pg (entryPtr s (BitVec.ofNat 64 j))
      = if s = pg then 0#64 else mem (entryPtr s (BitVec.ofNat 64 j)) := by
  have hptr := toNat_entryPtr hs hj
  have hpg' : pg.toNat % 4096 = 0 := hpg
  have hs' : s.toNat % 4096 = 0 := hs
  rw [Vmiter.zeroPage, hptr]
  by_cases h : s = pg
  · subst h
    rw [if_pos rfl, if_pos (by omega)]
  · have hne : s.toNat ≠ pg.toNat := fun hn => h (BitVec.eq_of_toNat_eq hn)
    rw [if_neg h, if_neg (by omega)]

section Link

variable {p : List Nat} {i : Nat} {t pg : Word}

/-- Where `try_map` links: an entry above the last level that is not present. -/
structure LinkSite (mem : Mem) (root : Word) (p : List Nat) (i : Nat) (t : Word) : Prop where
  tree : PageTree mem root
  path : IsPath 512 2 p
  index : i < 512
  page : table mem root p = some t
  absent : (mem (entryPtr t (BitVec.ofNat 64 i))).getLsbD 0 = false

theorem LinkSite.aligned (h : LinkSite mem root p i t) : PageAligned t :=
  table_aligned h.tree.aligned h.page

/-- There is no table below the entry yet. -/
theorem LinkSite.child_none (h : LinkSite mem root p i t) : table mem root (i :: p) = none := by
  rw [table, node_cons_of (child mem) h.page]
  refine pointee_eq_none.mpr (Bool.eq_false_iff.mpr ?_)
  intro htable
  have := ((isTable_iff _).mp htable).1
  rw [h.absent] at this
  exact Bool.noConfusion this

/-- The new page is not the table it is linked into. -/
theorem LinkSite.ne (h : LinkSite mem root p i t) (hpg : FreshPage mem root pg) : pg ≠ t := by
  rintro rfl
  exact hpg.unused p (h.path.mono (by omega)) h.page

/-- The entry of a linked page takes no permission away. -/
theorem and_link_perm (perm pg : Word) :
    perm &&& ((pg ||| pteP ||| pteW ||| pteU) ||| ~~~ptePWU) = perm := by
  have hassoc : pg ||| pteP ||| pteW ||| pteU = pg ||| ptePWU := by
    rw [BitVec.or_assoc, BitVec.or_assoc, ptePWU, BitVec.or_assoc]
  have hones : ptePWU ||| ~~~ptePWU = BitVec.allOnes 64 := by decide
  rw [hassoc, BitVec.or_assoc, hones, BitVec.or_allOnes, BitVec.and_allOnes]

/-- Every other entry stays, and the new page is empty. -/
theorem linkPage_read (h : LinkSite mem root p i t) (hpg : FreshPage mem root pg) {s : Word}
    {j : Nat} (hs : PageAligned s) (hj : j < 512) (hne : ¬ (s = t ∧ j = i)) :
    linkPage mem t i pg (entryPtr s (BitVec.ofNat 64 j))
      = if s = pg then 0#64 else mem (entryPtr s (BitVec.ofNat 64 j)) := by
  have hptr : entryPtr s (BitVec.ofNat 64 j) ≠ entryPtr t (BitVec.ofNat 64 i) := by
    intro heq
    exact hne (entryPtr_inj hs h.aligned hj h.index heq)
  rw [linkPage, Function.update_of_ne hptr, zeroPage_read hpg.aligned hs hj]

/-- Linking is an edit of one entry. -/
theorem linkPage_editAt (h : LinkSite mem root p i t) (hpg : FreshPage mem root pg) :
    EditAt mem (linkPage mem t i pg) root p i := by
  refine ⟨?_, ?_⟩
  · intro q s j hq hs hj hne
    have hst : ¬ (s = t ∧ j = i) := by
      rintro ⟨rfl, rfl⟩
      exact hne ⟨h.tree.tree q p s hq (h.path.mono (by omega)) hs h.page, rfl⟩
    rw [linkPage_read h hpg (table_aligned h.tree.aligned hs) hj hst, if_neg]
    rintro rfl
    exact hpg.unused q hq hs
  · rintro q s hq hs ⟨l, rfl⟩
    have hnone : node (child mem) root (i :: p) = none := h.child_none
    rw [table, node_append, hnone] at hs
    cases hs

/-- The linked page is where it should be. -/
theorem linkPage_table (h : LinkSite mem root p i t) (hpg : FreshPage mem root pg) :
    table (linkPage mem t i pg) root (i :: p) = some pg := by
  have hpage := (linkPage_editAt h hpg).table (h.path.mono (by omega)) h.page
  rw [table, node_cons_of (child _) hpage, child, linkPage, Function.update_self]
  exact pointee_link hpg.aligned (by have := hpg.low; omega)

/-- The linked page is empty. -/
theorem linkPage_empty (h : LinkSite mem root p i t) (hpg : FreshPage mem root pg) {j : Nat}
    (hj : j < 512) : linkPage mem t i pg (entryPtr pg (BitVec.ofNat 64 j)) = 0#64 := by
  rw [linkPage_read h hpg hpg.aligned hj (fun hst => h.ne hpg hst.1), if_pos rfl]

/-- The tables after the link are those before it and the new page. -/
theorem linkPage_table_inv (h : LinkSite mem root p i t) (hpg : FreshPage mem root pg)
    {q : List Nat} {s : Word} (hq : IsPath 512 3 q)
    (hs : table (linkPage mem t i pg) root q = some s) :
    table mem root q = some s ∨ (q = i :: p ∧ s = pg) := by
  rcases (linkPage_editAt h hpg).table_inv hq hs with hold | ⟨l, rfl⟩
  · exact Or.inl hold
  · rw [table, node_append_of (child _) (linkPage_table h hpg)] at hs
    rcases List.eq_nil_or_concat l with rfl | ⟨l', j, rfl⟩
    · exact Or.inr ⟨rfl, (Option.some.inj hs).symm⟩
    · -- nothing hangs off the empty page
      have hj : j < 512 := hq.2 j (by simp)
      have hnone : node (child (linkPage mem t i pg)) pg [j] = none := by
        show child (linkPage mem t i pg) pg j = none
        rw [child, linkPage_empty h hpg hj]
        exact pointee_eq_none.mpr isTable_zero
      rw [List.concat_eq_append, node_append, hnone] at hs
      cases hs

/-- Linking keeps the tree. -/
theorem linkPage_tree (h : LinkSite mem root p i t) (hpg : FreshPage mem root pg) :
    PageTree (linkPage mem t i pg) root := by
  refine ⟨h.tree.aligned, ?_⟩
  intro q r s hq hr hs hs'
  rcases linkPage_table_inv h hpg hq hs with hold | ⟨rfl, rfl⟩
  · rcases linkPage_table_inv h hpg hr hs' with hold' | ⟨rfl, rfl⟩
    · exact h.tree.tree q r s hq hr hold hold'
    · exact absurd hold (hpg.unused q hq)
  · -- the new page was in no page table before
    rcases linkPage_table_inv h hpg hr hs' with hold' | ⟨rfl, -⟩
    · exact absurd hold' (hpg.unused r hr)
    · rfl

/-- The tables stay in low memory. -/
theorem linkPage_low (h : LinkSite mem root p i t) (hpg : FreshPage mem root pg)
    (hlow : PhysLow mem root) : PhysLow (linkPage mem t i pg) root := by
  intro q s j hq h2 hs hj
  rcases linkPage_table_inv h hpg hq hs with hold | ⟨rfl, rfl⟩
  · by_cases hst : s = t ∧ j = i
    · obtain ⟨rfl, rfl⟩ := hst
      have hpt := pointee_link hpg.aligned (show pg.toNat < 2 ^ 52 by have := hpg.low; omega)
      rw [linkPage, Function.update_self, (pointee_eq_some.mp hpt).2]
      exact hpg.low
    · rw [linkPage_read h hpg (table_aligned h.tree.aligned hold) hj hst, if_neg]
      · exact hlow q s j hq h2 hold hj
      · rintro rfl
        exact hpg.unused q hq hold
  · rw [linkPage_empty h hpg hj]
    decide

/-- Other fresh pages stay fresh. -/
theorem linkPage_freshPage (h : LinkSite mem root p i t) (hpg : FreshPage mem root pg)
    {pg' : Word} (hpg' : FreshPage mem root pg') (hne : pg' ≠ pg) :
    FreshPage (linkPage mem t i pg) root pg' := by
  refine ⟨hpg'.aligned, hpg'.low, ?_⟩
  intro q hq hs
  rcases linkPage_table_inv h hpg hq hs with hold | ⟨-, heq⟩
  · exact hpg'.unused q hq hold
  · exact hne heq

/-- A walk through the linked entry stops one level below, at an empty entry. -/
theorem linkPage_walked (h : LinkSite mem root p i t) (hpg : FreshPage mem root pg)
    {it : Vmiter} (hc : vaIsCanonical it.va = true)
    (hpath : vaPath it.va (p.length + 1) = i :: p)
    (hw : Walked (linkPage mem t i pg) root it) :
    OnPath (linkPage mem t i pg) root (p.length + 1) it
      ∧ it.pep.read (linkPage mem t i pg) = 0#64 := by
  have hlen : p.length ≤ 2 := h.path.1
  rcases hw with ⟨d, hon, hstop⟩ | hoff
  · obtain ⟨s, hs, hpep⟩ := hon.slot
    have htab := linkPage_table h hpg
    rw [← hpath] at htab
    have hge := hon.depth_ge hstop (by omega) htab
    have hnew : vaPath it.va d = i :: p ∧ s = pg := by
      rcases linkPage_table_inv h hpg ((isPath_vaPath it.va d).mono hon.depth) hs with hold | hnew
      · -- an old page at this depth would lie below the absent entry
        obtain ⟨c, hc'⟩ := table_of_deeper hge hold
        rw [hpath, h.child_none] at hc'
        cases hc'
      · exact hnew
    have hd : d = p.length + 1 := by
      have := congrArg List.length hnew.1
      rw [length_vaPath, List.length_cons] at this
      exact this
    subst hd
    refine ⟨hon, ?_⟩
    rw [hpep, hnew.2]
    exact linkPage_empty h hpg (idxAt_lt _ _)
  · have := hoff.noncanonical
    rw [hc] at this
    exact Bool.noConfusion this

/-- **LINKING CHANGES NO MAPPING.** -/
theorem linkPage_sameMapping (h : LinkSite mem root p i t) (hpg : FreshPage mem root pg)
    (va : Word) : SameMapping mem (linkPage mem t i pg) root va := by
  have hroot := h.tree.aligned
  have hed := linkPage_editAt h hpg
  by_cases hthru : ∃ d, OnPath mem root d (fresh mem root va) ∧ vaPath va (d + 1) = i :: p
  · -- the walk stopped at the linked entry: nothing was mapped, and nothing is
    obtain ⟨d, hon, hpath⟩ := hthru
    have hva : (fresh mem root va).va = va := fresh_va hroot va
    have hva' : (fresh (linkPage mem t i pg) root va).va = va := fresh_va hroot va
    have hd : d = p.length := by
      have := congrArg List.length hpath
      rw [length_vaPath, List.length_cons] at this
      omega
    subst hd
    have hcanon := hon.canonical
    rw [hva] at hcanon
    obtain ⟨hon', hzero⟩ := linkPage_walked h hpg
      (show vaIsCanonical (fresh (linkPage mem t i pg) root va).va = true by
        rw [hva']; exact hcanon) (by rw [hva']; exact hpath) (fresh_walked hroot va).1
    refine SameMapping.of_absent hon ?_ hon' (by rw [hzero]; exact (show (0#64).getLsbD 0 = false by decide))
    rw [vaPath_succ] at hpath
    obtain ⟨hi, hp⟩ := List.cons.inj hpath
    rw [hon.read, hva, hi, hp, entryAt_of h.page]
    exact h.absent
  · -- the walk does not see the linked entry
    have hne : ∀ d, OnPath mem root d (fresh mem root va) → vaPath va (d + 1) ≠ i :: p :=
      fun d hon hpath => hthru ⟨d, hon, hpath⟩
    obtain ⟨heq, hread⟩ := hed.fresh hroot hne
    exact SameMapping.of_read heq hread

/-- After linking, `down` brings an iterator that stood at the entry one level
    further, with the permissions it had. -/
theorem linkPage_down (h : LinkSite mem root p i t) (hpg : FreshPage mem root pg)
    {it : Vmiter} (hon : OnPath mem root p.length it)
    (hpath : vaPath it.va (p.length + 1) = i :: p) :
    ∃ it', it.down (linkPage mem t i pg) = .ok it' ∧ it'.va = it.va ∧ it'.perm = it.perm
      ∧ it'.lbits = lbitsAt (p.length + 1) ∧ it'.pep.read (linkPage mem t i pg) = 0#64
      ∧ Walked (linkPage mem t i pg) root it' := by
  have hed := linkPage_editAt h hpg
  have hon' := hed.onPath hon
  obtain ⟨hw, hva⟩ := hon'.down
  have hc : vaIsCanonical (Vmiter.downLoop (linkPage mem t i pg) it.lbits it).va = true := by
    rw [hva]; exact hon.canonical
  obtain ⟨hdeep, hzero⟩ := linkPage_walked h hpg hc (by rw [hva]; exact hpath) hw
  refine ⟨_, ?_, hva, ?_, hdeep.lbits, hzero, hw⟩
  · rw [Vmiter.down, Vmiter.checked, if_neg]
    rw [Vmiter.uninitialized, hzero,
      show decide (0x100000000#64 ≤ 0#64 &&& ptePAMask) = false by decide, Bool.false_and]
    exact Bool.false_ne_true
  · -- the new entry allows everything
    rw [hdeep.perm, hva, vaPath_succ, permPath, ← hon'.perm]
    rw [vaPath_succ] at hpath
    obtain ⟨hi, hp⟩ := List.cons.inj hpath
    rw [hi, hp, entryAt_of (hed.table (h.path.mono (by omega)) h.page), linkPage,
      Function.update_self]
    exact and_link_perm it.perm pg

end Link

/-! ## Writing an entry of the last level -/

/-- Where `try_map` writes: an entry of the last level. -/
structure LeafSite (mem : Mem) (root : Word) (p : List Nat) (i : Nat) (t : Word) : Prop where
  tree : PageTree mem root
  path : IsPath 512 3 p
  last : p.length = 3
  index : i < 512
  page : table mem root p = some t

section Leaf

variable {p : List Nat} {i : Nat} {t : Word}

/-- `*pep = v`, at an entry of the last level. -/
def writeLeaf (mem : Mem) (t : Word) (i : Nat) (v : Word) : Mem :=
  Function.update mem (entryPtr t (BitVec.ofNat 64 i)) v

theorem LeafSite.aligned (h : LeafSite mem root p i t) : PageAligned t :=
  table_aligned h.tree.aligned h.page

/-- Writing a leaf edits one entry. -/
theorem writeLeaf_editAt (h : LeafSite mem root p i t) (v : Word) :
    EditAt mem (writeLeaf mem t i v) root p i := by
  refine ⟨?_, ?_⟩
  · intro q s j hq hs hj hne
    refine Function.update_of_ne ?_ _ _
    intro heq
    obtain ⟨rfl, rfl⟩ := entryPtr_inj (table_aligned h.tree.aligned hs) h.aligned hj h.index heq
    exact hne ⟨h.tree.tree q p s hq h.path hs h.page, rfl⟩
  · intro q s hq _ hsuf
    have hlen := hsuf.length_le
    rw [List.length_cons, h.last] at hlen
    have := hq.1
    omega

/-- The pages of the table are the same. -/
theorem writeLeaf_table_iff (h : LeafSite mem root p i t) (v : Word) {q : List Nat} {s : Word}
    (hq : IsPath 512 3 q) :
    table (writeLeaf mem t i v) root q = some s ↔ table mem root q = some s := by
  have hed := writeLeaf_editAt h v
  constructor
  · intro hs
    rcases hed.table_inv hq hs with hold | hsuf
    · exact hold
    · have hlen := hsuf.length_le
      rw [List.length_cons, h.last] at hlen
      have := hq.1
      omega
  · exact hed.table hq

/-- Writing a leaf keeps the tables a tree. -/
theorem writeLeaf_tree (h : LeafSite mem root p i t) (v : Word) :
    PageTree (writeLeaf mem t i v) root := by
  refine ⟨h.tree.aligned, ?_⟩
  intro q r s hq hr hs hs'
  exact h.tree.tree q r s hq hr ((writeLeaf_table_iff h v hq).mp hs)
    ((writeLeaf_table_iff h v hr).mp hs')

/-- Writing a leaf keeps the tables in low memory. -/
theorem writeLeaf_low (h : LeafSite mem root p i t) {v : Word}
    (hv : (v &&& ptePAMask).toNat < 2 ^ 32) (hlow : PhysLow mem root) :
    PhysLow (writeLeaf mem t i v) root := by
  intro q s j hq h2 hs hj
  rw [writeLeaf_table_iff h v hq] at hs
  by_cases hst : entryPtr s (BitVec.ofNat 64 j) = entryPtr t (BitVec.ofNat 64 i)
  · rw [hst, writeLeaf, Function.update_self]
    exact hv
  · rw [writeLeaf, Function.update_of_ne hst]
    exact hlow q s j hq h2 hs hj

/-- **THE WRITTEN PAGE**: an address of the page finds the written entry, under
    the permissions an iterator at that entry had. -/
theorem writeLeaf_fresh_same (h : LeafSite mem root p i t) (v : Word) {it : Vmiter}
    (hon : OnPath mem root 3 it) (hpath : vaPath it.va 4 = i :: p) {va : Word}
    (hsame : va.toNat / 4096 = it.va.toNat / 4096) :
    OnPath (writeLeaf mem t i v) root 3 (fresh (writeLeaf mem t i v) root va)
      ∧ (fresh (writeLeaf mem t i v) root va).pep.read (writeLeaf mem t i v) = v
      ∧ (fresh (writeLeaf mem t i v) root va).perm = it.perm := by
  have hpage : table (writeLeaf mem t i v) root p = some t :=
    (writeLeaf_table_iff h v h.path).mpr h.page
  have hpath' := vaPath_page hsame 4
  rw [hpath, vaPath_succ] at hpath'
  obtain ⟨hi, hp⟩ := List.cons.inj hpath'
  obtain ⟨hw, hva⟩ : Walked _ root (fresh (writeLeaf mem t i v) root va) ∧ _ :=
    fresh_walked h.tree.aligned va
  rcases hw with ⟨d, hon', hstop⟩ | hoff
  · have hd : d = 3 := by
      refine Nat.le_antisymm hon'.depth (hon'.depth_ge hstop (Nat.le_refl 3) (t := t) ?_)
      rw [hva, hp]
      exact hpage
    subst hd
    refine ⟨hon', ?_, ?_⟩
    · rw [hon'.read, hva, hp, hi, entryAt_of hpage, writeLeaf, Function.update_self]
    · rw [hon'.perm, ((writeLeaf_editAt h v).onPath hon).perm, hva, vaPath_page hsame]
  · have hnc := hoff.noncanonical
    rw [hva, vaIsCanonical_page hsame, hon.canonical] at hnc
    exact Bool.noConfusion hnc

/-- **ONLY ONE PAGE**: addresses outside the page of `va` do not see the write. -/
theorem writeLeaf_fresh_other (h : LeafSite mem root p i t) (v : Word) {va va' : Word}
    (hc : vaIsCanonical va = true) (hpath : vaPath va 4 = i :: p)
    (hother : va'.toNat / 4096 ≠ va.toNat / 4096) :
    fresh (writeLeaf mem t i v) root va' = fresh mem root va'
      ∧ (fresh mem root va').pep.read (writeLeaf mem t i v)
          = (fresh mem root va').pep.read mem := by
  refine (writeLeaf_editAt h v).fresh h.tree.aligned ?_
  intro d hon heq
  have hd : d = 3 := by
    have := congrArg List.length heq
    rw [length_vaPath, List.length_cons, h.last] at this
    omega
  subst hd
  have hc' := hon.canonical
  rw [fresh_va h.tree.aligned] at hc'
  exact hother (page_eq_of_vaPath hc' hc (heq.trans hpath.symm))

end Leaf

end TableEdits
