import Cs61.TableEdits

/-! # What a call of `try_map` can do

    The loop of `try_map` links cleared pages below the iterator until the last
    level is reached or `kalloc` fails; every pass moves the iterator one level
    down and changes no mapping (`grow_spec`).  The call then writes at most one
    entry of the last level.  `tryMap_cases` lists the outcomes. -/

namespace TryMap

open PageTable PostOrder VmIter WordMasks VmWalk VmQueries TableEdits
open Vmiter (grow install checkMap mapPa)

variable {mem : Mem} {root perm : Word} {kalloc : Vmiter.Kalloc}

/-! ## Assertions -/

theorem check_ok_iff {x : Bool} {e : String} {d : Option String} :
    check x e d = .ok () ↔ x = true := by
  rw [check]
  by_cases h : x = true
  · rw [if_pos h]
    exact ⟨fun _ => h, fun _ => rfl⟩
  · rw [if_neg h]
    exact ⟨fun hn => (nomatch hn), fun hx => absurd hx h⟩

theorem check_error {x : Bool} {e : String} {d : Option String} {f : Fault}
    (h : check x e d = .error f) : f = .assertFail e d := by
  rw [check] at h
  by_cases hx : x = true
  · rw [if_pos hx] at h
    cases h
  · rw [if_neg hx] at h
    exact (Except.error.inj h).symm

/-- Both steps of a computation that succeeds do. -/
theorem bind_eq_ok {α β : Type} {x : Except Fault α} {f : α → Except Fault β} {b : β} :
    x.bind f = .ok b ↔ ∃ a, x = .ok a ∧ f a = .ok b := by
  cases x with
  | error e => exact ⟨fun h => (nomatch h), fun ⟨_, h, _⟩ => (nomatch h)⟩
  | ok a =>
      refine ⟨fun h => ⟨a, rfl, h⟩, ?_⟩
      rintro ⟨a', ha, h⟩
      obtain rfl := Except.ok.inj ha
      exact h

/-- A computation that fails has a step that does. -/
theorem bind_eq_error {α β : Type} {x : Except Fault α} {f : α → Except Fault β} {e : Fault}
    (h : x.bind f = .error e) : x = .error e ∨ ∃ a, x = .ok a ∧ f a = .error e := by
  cases x with
  | error e' =>
      obtain rfl := Except.error.inj h
      exact Or.inl rfl
  | ok a => exact Or.inr ⟨a, rfl, h⟩

/-- Before the loop only assertions can fail. -/
theorem checkMap_error {it : Vmiter} {pa : Word} {f : Fault}
    (h : it.checkMap pa perm = .error f) : ∃ e d, f = .assertFail e d := by
  rcases bind_eq_error h with hva | ⟨-, -, h⟩
  · exact ⟨_, _, check_error hva⟩
  rcases bind_eq_error h with hpa | ⟨-, -, h⟩
  · rw [Vmiter.checkPa] at hpa
    split at hpa
    · rcases bind_eq_error hpa with hpa | ⟨-, -, hpa⟩
      · exact ⟨_, _, check_error hpa⟩
      · exact ⟨_, _, check_error hpa⟩
    · exact ⟨_, _, check_error hpa⟩
  · exact ⟨_, _, check_error h⟩

/-- What the assertions before the loop say. -/
theorem checkMap_ok {it : Vmiter} {pa : Word} (h : it.checkMap pa perm = .ok ()) :
    PageAligned it.va ∧ (perm.getLsbD 0 = true → pa ≠ ~~~(0#64) ∧ pa &&& ptePAMask = pa)
      ∧ (perm.getLsbD 0 = false → pa.getLsbD 0 = false)
      ∧ perm &&& ~~~it.perm &&& ptePWU = 0#64 := by
  obtain ⟨_, hva, h⟩ := bind_eq_ok.mp h
  obtain ⟨_, hpa, hperm⟩ := bind_eq_ok.mp h
  rw [check_ok_iff, beq_iff_eq] at hva hperm
  refine ⟨?_, ?_, ?_, hperm⟩
  · have := congrArg BitVec.toNat hva
    rw [BitVec.toNat_umod] at this
    exact this
  · intro hp
    rw [Vmiter.checkPa, if_pos (by rw [bne_iff_ne]; exact (and_pteP_ne_zero_iff _).mpr hp)] at hpa
    obtain ⟨_, hne, hal⟩ := bind_eq_ok.mp hpa
    rw [check_ok_iff, bne_iff_ne] at hne
    rw [check_ok_iff, beq_iff_eq] at hal
    exact ⟨hne, hal⟩
  · intro hp
    have hp' : ¬ perm &&& pteP ≠ 0#64 := by
      rw [and_pteP_ne_zero_iff, hp]
      exact Bool.false_ne_true
    rw [Vmiter.checkPa, if_neg (by rw [bne_iff_ne]; exact hp'), check_ok_iff, beq_iff_eq] at hpa
    refine Bool.eq_false_iff.mpr fun hpa' => ?_
    exact (and_pteP_ne_zero_iff _).mpr hpa' hpa

/-! ## What the loop promises -/

/-- `kalloc`, from its `k`-th call on: it fails, or hands out a page that is not
    in the table, and no page twice. -/
structure KallocFresh (kalloc : Vmiter.Kalloc) (k : Nat) (mem : Mem) (root : Word) : Prop where
  fresh : ∀ j, k ≤ j → kalloc j ≠ 0#64 → FreshPage mem root (kalloc j)
  distinct : ∀ j l, k ≤ j → k ≤ l → kalloc j ≠ 0#64 → kalloc j = kalloc l → j = l

/-- The loop test of `try_map`. -/
def grows (perm : Word) (it : Vmiter) : Bool :=
  decide (pageOffBits < it.lbits) && perm != 0#64

/-- When `try_map` needs another table. -/
theorem grows_iff {it : Vmiter} :
    grows perm it = true ↔ pageOffBits < it.lbits ∧ perm ≠ 0#64 := by
  rw [grows, Bool.and_eq_true, decide_eq_true_iff, bne_iff_ne]

/-- What the loop leaves behind. -/
structure GrowPost (mem : Mem) (root perm : Word) (it : Vmiter) (g : Vmiter.Grown) : Prop where
  tree : PageTree g.mem root
  low : PhysLow mem root → PhysLow g.mem root
  walked : Walked g.mem root g.it
  va : g.it.va = it.va
  permEq : g.it.perm = it.perm
  same : ∀ va, SameMapping mem g.mem root va
  /-- The loop ended by its own test, unless `kalloc` failed. -/
  bottom : g.linked = true → grows perm g.it = false
  idle : grows perm it = false → g = { linked := true, mem := mem, it := it }
  absent : grows perm it = true → (it.pep.read mem).getLsbD 0 = false

/-- The assertion of the loop. -/
def presentFault : Fault := .assertFail "!(*pep_ & PTE_P)" none

/-! ## One pass -/

/-- The state before the first table. -/
theorem GrowPost.start {it : Vmiter} (htree : PageTree mem root) (hw : Walked mem root it)
    (linked : Bool) (hstop : linked = true → grows perm it = false)
    (hidle : grows perm it = false → linked = true)
    (habs : grows perm it = true → (it.pep.read mem).getLsbD 0 = false) :
    GrowPost mem root perm it { linked := linked, mem := mem, it := it } where
  tree := htree
  low := id
  walked := hw
  va := rfl
  permEq := rfl
  same := SameMapping.refl mem root
  bottom := hstop
  idle := by
    intro h
    rw [hidle h]
  absent := habs

/-- Where the iterator of a growing `try_map` stands, a page can be linked. -/
theorem linkSite_of_walked {it : Vmiter} (htree : PageTree mem root) (hw : Walked mem root it)
    (hc : vaIsCanonical it.va = true) (hlb : pageOffBits < it.lbits)
    (habs : (it.pep.read mem).getLsbD 0 = false) :
    ∃ d t, OnPath mem root d it
      ∧ LinkSite mem root (vaPath it.va d) (idxAt it.va (lbitsAt d)) t
      ∧ it.pep = .slot (entryPtr t (BitVec.ofNat 64 (idxAt it.va (lbitsAt d)))) := by
  rcases hw with ⟨d, hon, -⟩ | hoff
  · obtain ⟨t, ht, hpep⟩ := hon.slot
    rw [hon.lbits, lbitsAt_gt hon.depth] at hlb
    refine ⟨d, t, hon, ⟨htree, (isPath_vaPath it.va d).mono (by omega), idxAt_lt _ _, ht, ?_⟩, hpep⟩
    rw [hpep] at habs
    exact habs
  · have := hoff.noncanonical
    rw [hc] at this
    exact Bool.noConfusion this

/-- One successful pass: a page is linked, and the iterator goes down to it. -/
theorem link_pass {it : Vmiter} {pg : Word} (htree : PageTree mem root)
    (hw : Walked mem root it) (hc : vaIsCanonical it.va = true) (hlb : pageOffBits < it.lbits)
    (habs : (it.pep.read mem).getLsbD 0 = false) (hpg : FreshPage mem root pg) :
    ∃ mem' it', it.pep.write (Vmiter.zeroPage mem pg) (pg ||| pteP ||| pteW ||| pteU) = .ok mem'
      ∧ it.down mem' = .ok it'
      ∧ PageTree mem' root ∧ (PhysLow mem root → PhysLow mem' root)
      ∧ Walked mem' root it' ∧ it'.va = it.va ∧ it'.perm = it.perm
      ∧ it'.lbits + pageIndexBits = it.lbits ∧ (∀ va, SameMapping mem mem' root va)
      ∧ ∀ pg', FreshPage mem root pg' → pg' ≠ pg → FreshPage mem' root pg' := by
  obtain ⟨d, t, hon, hsite, hpep⟩ := linkSite_of_walked htree hw hc hlb habs
  have hpath : vaPath it.va ((vaPath it.va d).length + 1)
      = idxAt it.va (lbitsAt d) :: vaPath it.va d := by
    rw [length_vaPath, vaPath_succ]
  have hon' : OnPath mem root (vaPath it.va d).length it := by
    rw [length_vaPath]; exact hon
  obtain ⟨it', hdown, hva, hperm, hlbits, -, hw'⟩ := linkPage_down hsite hpg hon' hpath
  have hdlt : d < 3 := by
    rw [hon.lbits, lbitsAt_gt hon.depth] at hlb
    exact hlb
  refine ⟨_, it', ?_, hdown, linkPage_tree hsite hpg, linkPage_low hsite hpg, hw', hva, hperm,
    ?_, linkPage_sameMapping hsite hpg, fun pg' => linkPage_freshPage hsite hpg⟩
  · rw [hpep]
    rfl
  · rw [hlbits, hon.lbits, length_vaPath]
    exact lbitsAt_succ hdlt

/-- Three spare pages beside `smallTable`. -/
def spareKalloc : Vmiter.Kalloc := fun k =>
  if k = 0 then 0x6000#64 else if k = 1 then 0x7000#64 else if k = 2 then 0x8000#64 else 0#64

theorem spareKalloc_fresh : KallocFresh spareKalloc 0 smallTable 0x1000#64 := by
  refine ⟨?_, ?_⟩
  · intro j _ hne
    have hpage : spareKalloc j = 0x6000#64 ∨ spareKalloc j = 0x7000#64
        ∨ spareKalloc j = 0x8000#64 := by
      unfold spareKalloc at hne ⊢
      split_ifs at hne ⊢ <;> simp_all
    rcases hpage with h | h | h <;> rw [h]
    all_goals
      refine ⟨rfl, by decide, ?_⟩
      intro q hq ht
      exact absurd (smallTable_page hq.2 ht) (by decide)
  · intro j l _ _ hne heq
    unfold spareKalloc at hne heq
    split_ifs at hne heq <;> simp_all

/-- The pages behind the next one are fresh too. -/
theorem KallocFresh.step {k : Nat} {mem' : Mem} (h : KallocFresh kalloc k mem root)
    (hkeep : ∀ pg, FreshPage mem root pg → pg ≠ kalloc k → FreshPage mem' root pg) :
    KallocFresh kalloc (k + 1) mem' root := by
  refine ⟨?_, ?_⟩
  · intro j hj hne
    refine hkeep _ (h.fresh j (by omega) hne) ?_
    intro heq
    have := h.distinct j k (by omega) (Nat.le_refl k) hne heq
    omega
  · intro j l hj hl hne heq
    exact h.distinct j l (by omega) (by omega) hne heq

/-! ## The loop -/

/-- The loop ends when no table is missing. -/
theorem grow_stop {n k : Nat} {it : Vmiter} (h : grows perm it = false) :
    grow kalloc perm n k mem it = .ok { linked := true, mem := mem, it := it } := by
  cases n with
  | zero => rfl
  | succ n =>
      rw [grow]
      exact if_neg (show ¬ grows perm it = true by rw [h]; exact Bool.false_ne_true)

/-- **THE LOOP OF `try_map`**: it stops at its assertion, or keeps the tree and
    every mapping, whatever `kalloc` does. -/
theorem grow_spec {n k : Nat} {it : Vmiter} (htree : PageTree mem root)
    (hw : Walked mem root it) (hc : vaIsCanonical it.va = true ∨ perm = 0#64)
    (hk : KallocFresh kalloc k mem root) (hn : it.lbits ≤ pageOffBits + pageIndexBits * n) :
    grow kalloc perm n k mem it = .error presentFault
      ∨ ∃ g, grow kalloc perm n k mem it = .ok g ∧ GrowPost mem root perm it g := by
  induction n generalizing k mem it with
  | zero =>
      -- no level is left, and so no table is missing
      have hstop : grows perm it = false := by
        rw [grows, decide_eq_false (by omega), Bool.false_and]
      exact Or.inr ⟨_, grow_stop hstop, GrowPost.start htree hw true (fun _ => hstop)
        (fun _ => rfl) (fun h => absurd (hstop.symm.trans h) Bool.false_ne_true)⟩
  | succ n ih =>
      by_cases hg : grows perm it = true
      · obtain ⟨hlb, hperm⟩ := grows_iff.mp hg
        have hcanon : vaIsCanonical it.va = true := hc.resolve_right hperm
        have hpass := hg
        rw [grows] at hpass
        rw [grow, if_pos hpass]
        by_cases habs : (it.pep.read mem).getLsbD 0 = false
        · have hcheck : (it.pep.read mem &&& pteP == 0#64) = true := by
            rw [beq_iff_eq]
            refine Classical.byContradiction fun hne => ?_
            rw [(and_pteP_ne_zero_iff _).mp hne] at habs
            exact Bool.noConfusion habs
          rw [check, if_pos hcheck, Except.bind]
          by_cases hnull : kalloc k = 0#64
          · -- `kalloc` fails: nothing more is changed
            refine Or.inr ⟨_, if_pos (beq_iff_eq.mpr hnull), ?_⟩
            refine GrowPost.start htree hw false (fun h => absurd h Bool.false_ne_true)
              (fun h => ?_) (fun _ => habs)
            rw [hg] at h
            exact Bool.noConfusion h
          · -- a page is linked, and `down` goes one level further
            obtain ⟨mem', it', hwrite, hdown, htree', hlow', hw', hva, hperm', hlbits, hsame,
              hkeep⟩ := link_pass htree hw hcanon hlb habs (hk.fresh k (Nat.le_refl k) hnull)
            have hn' : it'.lbits ≤ pageOffBits + pageIndexBits * n := by
              rw [Nat.mul_succ] at hn
              omega
            have hc' : vaIsCanonical it'.va = true ∨ perm = 0#64 := by
              rw [hva]; exact hc
            rw [if_neg (by rw [beq_iff_eq]; exact hnull), hwrite, Except.bind, hdown, Except.bind]
            rcases ih htree' hw' hc' (hk.step hkeep) hn' with herr | ⟨g, hgrow, post⟩
            · exact Or.inl herr
            · refine Or.inr ⟨g, hgrow, ?_⟩
              exact {
                tree := post.tree
                low := fun h => post.low (hlow' h)
                walked := post.walked
                va := post.va.trans hva
                permEq := post.permEq.trans hperm'
                same := fun va => (hsame va).trans (post.same va)
                bottom := post.bottom
                idle := fun h => absurd (h.symm.trans hg) Bool.false_ne_true
                absent := fun _ => habs }
        · -- the entry is present: the assertion of the loop fails
          refine Or.inl ?_
          have hcheck : ¬ (it.pep.read mem &&& pteP == 0#64) = true := by
            rw [beq_iff_eq]
            exact (and_pteP_ne_zero_iff _).mpr (by simpa using habs)
          rw [check, if_neg hcheck]
          rfl
      · -- no table is missing
        have hstop : grows perm it = false := Bool.eq_false_iff.mpr hg
        exact Or.inr ⟨_, grow_stop hstop, GrowPost.start htree hw true (fun _ => hstop)
          (fun _ => rfl) (fun h => absurd h hg)⟩

/-! ## The call -/

/-- An iterator that reached the last level stands at an entry that can be written. -/
theorem leafSite_of_walked {it : Vmiter} (htree : PageTree mem root) (hw : Walked mem root it)
    (hlb : it.lbits = pageOffBits) :
    ∃ t, OnPath mem root 3 it
      ∧ LeafSite mem root (vaPath it.va 3) (idxAt it.va pageOffBits) t
      ∧ it.pep = .slot (entryPtr t (BitVec.ofNat 64 (idxAt it.va pageOffBits))) := by
  rcases hw with ⟨d, hon, -⟩ | hoff
  · have hd : d = 3 := by
      have hle := hon.depth
      rw [hon.lbits, lbitsAt, pageOffBits, pageIndexBits] at hlb
      omega
    subst hd
    obtain ⟨t, ht, hpep⟩ := hon.slot
    exact ⟨t, hon, ⟨htree, isPath_vaPath it.va 3, length_vaPath it.va 3, idxAt_lt _ _, ht⟩, hpep⟩
  · rw [hoff.lbits] at hlb
    exact absurd hlb (by decide)

/-- What a call that returned has done. -/
inductive Outcome (root v : Word) (g : Vmiter.Grown) (r : Vmiter.Mapped) : Prop where
  /-- `kalloc` failed. -/
  | failed (linked : g.linked = false) (eq : r = { ret := -1, mem := g.mem, it := g.it })
  /-- The iterator is above the last level, and nothing is written. -/
  | nothing (linked : g.linked = true) (lbits : g.it.lbits ≠ pageOffBits)
      (eq : r = { ret := 0, mem := g.mem, it := g.it })
  | wrote (t : Word) (linked : g.linked = true) (lbits : g.it.lbits = pageOffBits)
      (onPath : OnPath g.mem root 3 g.it)
      (site : LeafSite g.mem root (vaPath g.it.va 3) (idxAt g.it.va pageOffBits) t)
      (eq : r = { ret := 0, mem := writeLeaf g.mem t (idxAt g.it.va pageOffBits) v, it := g.it })

/-- Writing the entry has one of the two outcomes. -/
theorem install_outcome (pa : Word) {g : Vmiter.Grown} (htree : PageTree g.mem root)
    (hw : Walked g.mem root g.it) :
    ∃ r, install pa perm g = .ok r ∧ Outcome root (pa ||| perm) g r := by
  cases hl : g.linked with
  | false => exact ⟨_, by rw [install, hl]; rfl, Outcome.failed hl rfl⟩
  | true =>
      rw [install, if_pos hl]
      by_cases hlb : g.it.lbits = pageOffBits
      · obtain ⟨t, hon, hsite, hpep⟩ := leafSite_of_walked htree hw hlb
        rw [if_pos (beq_iff_eq.mpr hlb), hpep]
        exact ⟨_, rfl, Outcome.wrote t hl hlb hon hsite rfl⟩
      · rw [if_neg (by rw [beq_iff_eq]; exact hlb)]
        exact ⟨_, rfl, Outcome.nothing hl hlb rfl⟩

/-- **OUTCOMES**: a call from a walked iterator fails an assertion, or grows the
    table and then does one of three things. -/
theorem tryMap_cases {it : Vmiter} (pa : Word) {perm : BitVec 32} (htree : PageTree mem root)
    (hw : Walked mem root it)
    (hc : vaIsCanonical it.va = true ∨ perm.signExtend 64 = 0#64)
    (hk : KallocFresh kalloc 0 mem root) :
    (∃ e d, it.tryMap kalloc mem pa perm = .error (.assertFail e d))
      ∨ ∃ g r, it.tryMap kalloc mem pa perm = .ok r
          ∧ it.checkMap (mapPa pa (perm.signExtend 64)) (perm.signExtend 64) = .ok ()
          ∧ GrowPost mem root (perm.signExtend 64) it g
          ∧ Outcome root (mapPa pa (perm.signExtend 64) ||| perm.signExtend 64) g r := by
  have hfuel : it.lbits ≤ pageOffBits + pageIndexBits * it.lbits := by
    simp only [pageOffBits, pageIndexBits]
    omega
  rw [Vmiter.tryMap]
  cases hcheck : it.checkMap (mapPa pa (perm.signExtend 64)) (perm.signExtend 64) with
  | error f =>
      obtain ⟨e, d, rfl⟩ := checkMap_error hcheck
      exact Or.inl ⟨e, d, rfl⟩
  | ok u =>
      rcases grow_spec htree hw hc hk hfuel with herr | ⟨g, hgrow, post⟩
      · refine Or.inl ⟨"!(*pep_ & PTE_P)", none, ?_⟩
        rw [Except.bind, herr]
        rfl
      · obtain ⟨r, hr, hout⟩ := install_outcome (mapPa pa (perm.signExtend 64)) post.tree
          post.walked
        refine Or.inr ⟨g, r, ?_, rfl, post, hout⟩
        rw [Except.bind, hgrow]
        exact hr

end TryMap
