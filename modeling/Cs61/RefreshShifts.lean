import Cs61.LbitsMask
import Cs61.MemRefresh

/-! # `memusage::refresh` with checked shifts

    The loop over the lower half of a process's page-table pages asks `va()`
    of an iterator that may be done.  It is when no page-table page hangs off
    an upper root entry, and then `va()` shifts by 64; no other walk of
    `refresh` does (`refresh_shift_iff`). -/

namespace RefreshShifts

open PageTable PostOrder VmIter WordMasks VmWalk VmQueries LoopRules CheckedLoops VmRanges
open VmRuns VmFind VmRangePerm PtIter PtVisit MemUsage MemRefresh LbitsMask
open Vmiter (lbitsMask initialLbits doneLbits)

/-! ## Page-table pages -/

/-- `ptiter::va()`. -/
def baseVa? (it : Ptiter) : Except Trap Word :=
  (lbitsMask? it.lbits).map fun mask => it.va &&& ~~~mask

/-- The second half of the loop body of `ptiter::down`. -/
def pass? (w : Walk) : Turn Walk (Except Trap Moved) :=
  match lbitsMask? w.it.lbits with
  | .error e => .leave (.error e)
  | .ok mask =>
      match lbitsMask? (w.it.lbits + pageIndexBits) with
      | .error e => .leave (.error e)
      | .ok upper =>
          let va := (w.it.va ||| mask) + 1#64
          if (va ^^^ w.it.va) &&& ~~~upper != 0#64 then
            if va == 0#64 && w.it.lbits == initialLbits then
              .leave (.ok { it := { w.it with lbits := doneLbits }, reads := w.reads })
            else
              .again { w with
                it := w.it.restart, skip := false, stopLbits := w.it.lbits + pageIndexBits }
          else
            .again { w with
              it := { w.it with
                pep := w.it.pep + 8#64
                va := if vaIsCanonical va = true then va else vaHighMin }
              skip := false }

/-- The loop body of `ptiter::down`. -/
def downBody? (mem : Mem) (w : Walk) : Turn Walk (Except Trap Moved) :=
  if w.it.lbits < doneLbits then
    if w.skip = true then pass? w
    else
      if isTable (mem w.it.pep) = true then
        if w.it.lbits = w.stopLbits then .leave (.ok { it := w.it, reads := w.log.reads })
        else .again { w.log with it := w.it.descend mem }
      else pass? w.log
  else .leave (.ok { it := w.it, reads := w.reads })

/-- `ptiter::down(skip)`. -/
def down? (mem : Mem) (skip : Bool) (fuel : Nat) (it : Ptiter) : Option (Except Trap Moved) :=
  run (downBody? mem) fuel
    { it := it, skip := skip, stopLbits := pageOffBits + pageIndexBits, reads := [] }

/-- `for (ptiter it(pt); cond(it); it.next())`. -/
def visit? (mem : Mem) (cond : Ptiter → Except Trap Bool) (pt : Word) (inner outer : Nat) :
    Option (Except Trap (List Ptiter)) :=
  andThen (down? mem false inner
    { pt := pt, pep := entryPtr pt 0#64, lbits := initialLbits, va := 0#64 }) fun m =>
  collect? cond (fun it => andThen (down? mem true inner it) fun m => some (.ok m.it)) outer m.it

variable {mem : Mem} {pt : Word}

/-- The levels that a `ptiter` is at. -/
def AtLevel (it : Ptiter) : Prop := it.lbits ≤ 39 ∨ it.lbits = doneLbits

/-- Below the top of the tree, `pass` makes no shift of 64 bits. -/
theorem pass?_eq {w : Walk} (h : w.it.lbits ≤ 39) : pass? w = unchecked (pass w) := by
  rw [pass?, PtIter.pass, lbitsMask?_ok (show w.it.lbits < 64 by omega),
    lbitsMask?_ok (show w.it.lbits + pageIndexBits < 64 by rw [pageIndexBits]; omega)]
  dsimp only
  split
  · split <;> rfl
  · rfl

/-- Nor does a pass of `down`. -/
theorem downBody?_eq {w : Walk} (h : AtLevel w.it) : downBody? mem w = unchecked (downBody mem w) := by
  rw [downBody?, downBody]
  rcases h with h | h
  · split
    · split
      · exact pass?_eq h
      · split
        · split <;> rfl
        · exact pass?_eq h
    · rfl
  · rw [if_neg (by rw [h]; exact Nat.lt_irrefl _), if_neg (by rw [h]; exact Nat.lt_irrefl _)]
    rfl

/-- Where a pass goes. -/
theorem pass_again {w w' : Walk} (h : w.it.lbits ≤ 39) (hp : pass w = .again w') :
    w'.it.lbits ≤ 39 := by
  rw [PtIter.pass] at hp
  dsimp only at hp
  split at hp
  · split at hp
    · cases hp
    · cases hp
      exact Nat.le_refl _
  · cases hp
    exact h

/-- A pass leaves the iterator at a level of the tree, or done. -/
theorem pass_leave {w : Walk} {r : Moved} (hp : pass w = .leave r) : AtLevel r.it := by
  rw [PtIter.pass] at hp
  dsimp only at hp
  split at hp
  · split at hp
    · cases hp
      exact Or.inr rfl
    · cases hp
  · cases hp

/-- A pass of `down` keeps the level of the iterator one of the tree. -/
theorem downBody_again {w w' : Walk} (h : AtLevel w.it) (hb : downBody mem w = .again w') :
    AtLevel w'.it := by
  rw [downBody] at hb
  split at hb
  · rename_i hlt
    have hle : w.it.lbits ≤ 39 := h.resolve_right (Nat.ne_of_lt hlt)
    split at hb
    · exact Or.inl (pass_again hle hb)
    · split at hb
      · split at hb
        · cases hb
        · cases hb
          exact Or.inl (Nat.le_trans (Nat.sub_le _ _) hle)
      · exact Or.inl (pass_again (w := w.log) hle hb)
  · cases hb

theorem downBody_leave {w : Walk} {r : Moved} (h : AtLevel w.it) (hb : downBody mem w = .leave r) :
    AtLevel r.it := by
  rw [downBody] at hb
  split at hb
  · split at hb
    · exact pass_leave hb
    · split at hb
      · split at hb
        · cases hb
          exact h
        · cases hb
      · exact pass_leave hb
  · cases hb
    exact h

/-- `down` does not shift by 64. -/
theorem down?_eq {it : Ptiter} (h : AtLevel it) (skip : Bool) (fuel : Nat) :
    down? mem skip fuel it = (it.down mem skip fuel).map .ok :=
  run_checked (fun w => AtLevel w.it) (fun _ hw => downBody?_eq hw)
    (fun _ _ hw hb => downBody_again hw hb) fuel _ h

/-- So does `down`. -/
theorem down_atLevel {it : Ptiter} {r : Moved} (h : AtLevel it) {skip : Bool} {fuel : Nat}
    (hr : it.down mem skip fuel = some r) : AtLevel r.it :=
  run_invariant (fun w => AtLevel w.it) (fun r => AtLevel r.it)
    (fun _ _ hw hb => downBody_again hw hb) (fun _ _ hw hb => downBody_leave hw hb) fuel _ r h hr

theorem next?_eq {it : Ptiter} (h : AtLevel it) (inner : Nat) :
    (andThen (down? mem true inner it) fun m => some (.ok m.it))
      = ((it.next mem inner).map Moved.it).map (Except.ok (ε := Trap)) := by
  rw [down?_eq h, andThen_map, Ptiter.next]
  cases it.down mem true inner <;> rfl

/-- The checked visit, without the checks of `down`. -/
theorem visit?_eq (cond : Ptiter → Except Trap Bool) (inner outer : Nat) :
    visit? mem cond pt inner outer = (Ptiter.new mem pt inner).bind fun m =>
      collect? cond (fun it => andThen (down? mem true inner it) fun m => some (.ok m.it))
        outer m.it := by
  rw [visit?, down?_eq (Or.inl (Nat.le_refl 39)), andThen_map]
  rfl

/-- A loop whose condition does not shift. -/
theorem visit?_checked (cond : Ptiter → Bool) (inner outer : Nat) :
    visit? mem (fun it => .ok (cond it)) pt inner outer
      = (visit mem cond pt inner outer).map .ok := by
  rw [visit?_eq, visit]
  cases hm : Ptiter.new mem pt inner with
  | none => rfl
  | some m =>
      refine collect_checked AtLevel (fun _ _ => rfl) (fun it h _ => next?_eq h inner) ?_ outer _
        (down_atLevel (Or.inl (Nat.le_refl 39)) hm)
      intro it it' h _ hnext
      obtain ⟨r, hr, rfl⟩ := Option.map_eq_some_iff.mp hnext
      exact down_atLevel h hr

/-- A page-table page in the upper half. -/
def HasUpper (mem : Mem) (pt : Word) : Prop :=
  ∃ i c, 256 ≤ i ∧ i < 512 ∧ child mem pt i = some c

/-- The loop condition `it.va() < VA_LOWEND`. -/
def lowVa? (it : Ptiter) : Except Trap Bool := (baseVa? it).map fun va => decide (va < vaLowEnd)

/-- The test of the address is defined at an entry. -/
theorem lowVa?_at {d : Nat} {it : Ptiter} (h : At mem pt d it) :
    lowVa? it = .ok (decide (it.va.toNat < 2 ^ 47)) := by
  have hlt := h.not_done
  rw [lowVa?, baseVa?, lbitsMask?_ok hlt]
  show Except.ok (decide (it.baseVa < vaLowEnd)) = _
  refine congrArg Except.ok (Bool.eq_iff_iff.mpr ?_)
  rw [baseVa_low_iff h, decide_eq_true_iff]

/-- The test of the address shifts by 64 bits when the iterator is done. -/
theorem lowVa?_done {it : Ptiter} (h : it.lbits = doneLbits) : lowVa? it = .error (.shift 64) := by
  rw [lowVa?, baseVa?, h]
  rfl

/-- The visits end at a page of the upper half, or at the end. -/
theorem visits_returns? {it : Ptiter} {L : List Ptiter} (h : Visits mem pt it L) :
    ∃ r, Returns₂ (fun inner outer => collect? lowVa?
        (fun it => andThen (down? mem true inner it) fun m => some (.ok m.it)) outer it) r
      ∧ ((∃ v ∈ L, 2 ^ 47 ≤ v.va.toNat) → ∃ L', r = .ok L')
      ∧ ((∀ v ∈ L, v.va.toNat < 2 ^ 47) → r = .error (.shift 64)) := by
  induction h with
  | done lbits high =>
      refine ⟨_, returns_collect_trap (lowVa?_done lbits), ?_, fun _ => rfl⟩
      rintro ⟨v, hv, -⟩
      cases hv
  | @page it e r L pos _ next _ _ _ _ ih =>
      have hlow := lowVa?_at pos
      by_cases hva : it.va.toNat < 2 ^ 47
      · rw [decide_eq_true hva] at hlow
        obtain ⟨q, hret, hupper, hall⟩ := ih
        have hnext : Returns (fun inner =>
            andThen (down? mem true inner it) fun m => some (.ok m.it)) (.ok r.it) := by
          refine ((next.map Moved.it).map Except.ok).congr ?_
          intro inner
          exact next?_eq (Or.inl (by rw [pos.lbits]; exact lbitsAt_le _)) inner
        refine ⟨_, returns_collect_pass hlow hnext hret, ?_, ?_⟩
        · rintro ⟨v, hv, hhigh⟩
          rcases List.mem_cons.mp hv with rfl | hv
          · exact absurd hva (Nat.not_lt.mpr hhigh)
          · obtain ⟨L', rfl⟩ := hupper ⟨v, hv, hhigh⟩
            exact ⟨_, rfl⟩
        · intro hlows
          rw [hall fun v hv => hlows v (List.mem_cons_of_mem _ hv)]
          rfl
      · rw [decide_eq_false hva] at hlow
        refine ⟨_, returns_collect_end hlow, fun _ => ⟨_, rfl⟩, ?_⟩
        intro hlows
        exact absurd (hlows it List.mem_cons_self) hva

/-- **THE LOOP OVER THE LOWER HALF** does not shift by 64 when there is a
    page-table page in the upper half, and only then. -/
theorem visit?_low (htree : PageTree mem pt) :
    (HasUpper mem pt → ∃ L, Returns₂ (visit? mem lowVa? pt) (.ok L))
      ∧ (¬ HasUpper mem pt → Returns₂ (visit? mem lowVa? pt) (.error (.shift 64))) := by
  obtain ⟨m, ⟨n, hnew⟩, hy⟩ := new_spec mem htree.aligned
  obtain ⟨L, hL, hpages⟩ := visits_of_yields htree.aligned hy
  obtain ⟨r, ⟨k, hret⟩, hupper, hall⟩ := visits_returns? hL
  -- the visit, with enough fuel for the first page and the others
  have hvisit : Returns₂ (visit? mem lowVa? pt) r := by
    refine ⟨n + k, ?_⟩
    intro inner outer hi ho
    rw [visit?_eq, hnew inner (by omega)]
    exact hret inner outer (by omega) (by omega)
  -- a visited page of the upper half is under an upper root entry
  have hiff : (∃ v ∈ L, 2 ^ 47 ≤ v.va.toNat) ↔ HasUpper mem pt := by
    constructor
    · rintro ⟨v, hv, hhigh⟩
      obtain ⟨-, e, hat, hpage⟩ := hL.member v hv
      have hidx : ¬ idxAt v.va (lbitsAt 0) < 256 := by
        rw [← low_iff hat]
        exact Nat.not_lt.mpr hhigh
      obtain ⟨c, hc⟩ := table_of_deeper (show 1 ≤ e + 1 by omega) hpage
      obtain ⟨s, hs, hchild⟩ := node_tail (child mem) hc
      obtain rfl := Option.some.inj hs
      exact ⟨_, c, Nat.le_of_not_lt hidx, idxAt_lt _ _, hchild⟩
    · rintro ⟨i, c, hlo, hhi, hchild⟩
      have hc : table mem pt [i] = some c := by
        rw [table, node_cons_of (child mem) (show node (child mem) pt [] = some pt from rfl)]
        exact hchild
      have hmem : c ∈ pages mem L := by
        rw [hpages, mem_below]
        exact ⟨[i], by simp, ((IsPath.nil 2).cons hhi), hc⟩
      obtain ⟨v, hv, rfl⟩ := List.mem_map.mp hmem
      obtain ⟨-, e, hat, hpage⟩ := hL.member v hv
      have hpath : vaPath v.va (e + 1) = [i] :=
        -- a path is the only one to its page
        htree.tree _ _ _ ((isPath_vaPath _ _).mono (by have := hat.depth; omega))
          ((IsPath.nil 2).cons hhi) hpage hc
      obtain ⟨q, -, heq⟩ := vaPath_root v.va e
      rw [hpath] at heq
      have hidx : i = idxAt v.va (lbitsAt 0) := by
        have hlen := congrArg List.length heq
        rw [List.length_append, List.length_singleton, List.length_singleton] at hlen
        obtain rfl := List.eq_nil_of_length_eq_zero (show q.length = 0 by omega)
        exact List.head_eq_of_cons_eq heq
      refine ⟨v, hv, Nat.le_of_not_lt ?_⟩
      rw [low_iff hat, ← hidx]
      exact Nat.not_lt.mpr hlo
  refine ⟨?_, ?_⟩
  · intro h
    obtain ⟨L', rfl⟩ := hupper (hiff.mpr h)
    exact ⟨L', hvisit⟩
  · intro h
    rw [← hall fun v hv => Nat.lt_of_not_le fun hle => h (hiff.mp ⟨v, hv, hle⟩)]
    exact hvisit

/-! ## Mappings -/

/-- `for (vmiter it(pt, 0); it.va() < VA_LOWEND; )`, with a checked test. -/
def scan? (mem : Mem) (pt : Word) (selects : Vmiter → Except Trap Bool) (fuel : Nat) :
    Option (Except Trap (List Vmiter)) :=
  match Vmiter.new mem pt 0#64 with
  | .error f => some (.error (.fault f))
  | .ok it =>
      collect? (fun it => .ok (decide (it.va < vaLowEnd)))
        (fun it => some ((selects it).bind fun selected =>
          if selected = true then next? mem it else nextRange? mem it)) fuel it

/-- `it.user()`, after which the body asks `pa()`. -/
def userPa? (mem : Mem) (it : Vmiter) : Except Trap Bool :=
  if it.user mem = true then (pa? mem it).map fun _ => true else .ok false

/-- A used page that is user-accessible through the kernel page table. -/
def ownedPa? (k : Kernel) (it : Vmiter) : Except Trap Bool :=
  if it.user k.mem = true then
    (pa? k.mem it).map fun pa => decide (pa < memsizePhysical) && k.used (pa.toNat / 4096)
  else .ok false

theorem userPa?_ok {it : Vmiter} (h : it.lbits < 64) : userPa? mem it = .ok (it.user mem) := by
  rw [userPa?, pa?_ok h]
  by_cases hu : it.user mem = true
  · rw [if_pos hu, hu]
    rfl
  · rw [if_neg hu, Bool.eq_false_iff.mpr hu]

theorem ownedPa?_ok {k : Kernel} {it : Vmiter} (h : it.lbits < 64) :
    ownedPa? k it = .ok (k.owned it) := by
  rw [ownedPa?, pa?_ok h, Kernel.owned]
  by_cases hu : it.user k.mem = true
  · rw [if_pos hu, hu]
    rfl
  · rw [if_neg hu, Bool.eq_false_iff.mpr hu]
    rfl

theorem toOption_eq_some {ρ : Type} {x : Except Fault ρ} {a : ρ} (h : x.toOption = some a) :
    x = .ok a := by
  cases x with
  | error f => cases h
  | ok b => exact congrArg Except.ok (Option.some.inj h)

/-- The walks over mappings do not shift by 64. -/
theorem scan?_returns {sel : Vmiter → Bool} {sel? : Vmiter → Except Trap Bool}
    (hwf : WellFormed mem pt) (hsel : ∀ it, sel it = true → it.perms mem ≠ 0#64)
    (hsel? : ∀ it : Vmiter, it.lbits < 64 → sel? it = .ok (sel it)) :
    ∃ L, Returns (scan? mem pt sel?) (.ok L) := by
  obtain ⟨L, hL, -⟩ := scan_tiles hwf hsel
  refine ⟨L, (hL.map Except.ok).congr ?_⟩
  intro fuel
  have hnew := new_ok hwf.aligned hwf.low 0#64
  obtain ⟨hw, hva⟩ : Walked mem pt (fresh mem pt 0#64) ∧ _ := fresh_walked hwf.aligned 0#64
  rw [scan?, scan, hnew]
  -- the loop sees walked iterators at page-aligned addresses, or ends
  refine collect_checked (fun it => Scanned mem pt it ∨ decide (it.va < vaLowEnd) = false)
    (fun _ _ => rfl) ?_ ?_ fuel _ (Or.inl ⟨hw, by rw [PageAligned, hva]; rfl⟩)
  · intro it h hc
    have hscan := h.resolve_right (fun hf => Bool.noConfusion (hc.symm.trans hf))
    have hlt := Walked.lbits_lt hscan.1
    obtain ⟨-, -, it', hgo, -⟩ := scan_step hwf.aligned hwf.low hsel hscan hc
    rw [hsel? it hlt, hgo]
    show some (if sel it = true then next? mem it else nextRange? mem it) = some (.ok it')
    by_cases hs : sel it = true
    · rw [if_pos hs] at hgo ⊢
      exact congrArg some (next?_ok hlt (toOption_eq_some hgo))
    · rw [if_neg hs] at hgo ⊢
      exact congrArg some (nextRange?_ok hlt (toOption_eq_some hgo))
  · intro it it' h hc hgo
    have hscan := h.resolve_right (fun hf => Bool.noConfusion (hc.symm.trans hf))
    obtain ⟨-, -, it₁, hgo₁, hcase⟩ := scan_step hwf.aligned hwf.low hsel hscan hc
    obtain rfl := Option.some.inj (hgo.symm.trans hgo₁)
    rcases hcase with ⟨-, hend⟩ | ⟨-, -, hscan', -⟩
    · exact Or.inr hend
    · exact Or.inl hscan'

/-! ## The whole of `refresh` -/

/-- The loop body of `refresh` for one process. -/
def refreshProc? (k : Kernel) (inner outer pid : Nat) (u : Usage) : Option (Except Trap Usage) :=
  if k.separate pid = true then
    andThen (visit? k.mem lowVa? (k.ptable pid).pagetable inner outer) fun L =>
    andThen (scan? k.mem (k.ptable pid).pagetable (userPa? k.mem) outer) fun M =>
    some (.ok (M.foldl (Usage.markUser k.mem (fProcess pid))
      (k.markProcTables pid L { u with separateTables := true })))
  else some (.ok u)

/-- `for (int pid = 1; pid < MAXNPROC; ++pid)`, over a list of process ids. -/
def refreshProcs? (k : Kernel) (inner outer : Nat) : List Nat → Usage → Option (Except Trap Usage)
  | [], u => some (.ok u)
  | pid :: pids, u => andThen (refreshProc? k inner outer pid u) (refreshProcs? k inner outer pids)

/-- If no process has a page table of its own, mark by physical address instead. -/
def refreshByOwner? (k : Kernel) (outer : Nat) (u : Usage) : Option (Except Trap Usage) :=
  if u.separateTables = true then some (.ok u)
  else andThen (scan? k.mem k.kernelPagetable (ownedPa? k) outer) fun L =>
    some (.ok (L.foldl k.markOwned u))

/-- `refresh()`; `page` is what `kalloc` returns if `v_` is not yet allocated. -/
def refresh? (k : Kernel) (page : Word) (u : Usage) (inner outer : Nat) :
    Option (Except Trap Usage) :=
  let v := if u.v = 0#64 then page else u.v
  if v = 0#64 then some (.error (.fault (.assertFail "v_ != nullptr" none)))
  else
    andThen (visit? k.mem (fun it => .ok (!it.done)) k.kernelPagetable inner outer) fun L =>
    andThen (refreshProcs? k inner outer (List.range' 1 (maxNProc - 1))
      (k.markKernelTables v L (.cleared v))) (refreshByOwner? k outer)

variable {k : Kernel}

/-- A page that the process owns is mapped. -/
theorem perms_of_owned {it : Vmiter} (h : k.owned it = true) : it.perms k.mem ≠ 0#64 := by
  rw [Kernel.owned, Bool.and_eq_true, Bool.and_eq_true] at h
  exact perms_of_user h.1.1

/-- One process shifts by 64 when its own page table has no page-table page in
    the upper half. -/
theorem refreshProc?_returns {pid : Nat} (h1 : 1 ≤ pid) (h2 : pid < maxNProc)
    (hwf : Separate k pid → WellFormed k.mem (k.ptable pid).pagetable) (u : Usage) :
    ((Separate k pid → HasUpper k.mem (k.ptable pid).pagetable) →
        ∃ u', Returns₂ (fun inner outer => refreshProc? k inner outer pid u) (.ok u'))
      ∧ (Separate k pid → ¬ HasUpper k.mem (k.ptable pid).pagetable →
        Returns₂ (fun inner outer => refreshProc? k inner outer pid u) (.error (.shift 64))) := by
  by_cases hs : k.separate pid = true
  · have hsep := (separate_iff h1 h2).mp hs
    have hdef : ∀ inner outer, refreshProc? k inner outer pid u
        = andThen (visit? k.mem lowVa? (k.ptable pid).pagetable inner outer) fun L =>
          andThen (scan? k.mem (k.ptable pid).pagetable (userPa? k.mem) outer) fun M =>
          some (.ok (M.foldl (Usage.markUser k.mem (fProcess pid))
            (k.markProcTables pid L { u with separateTables := true }))) :=
      fun _ _ => if_pos hs
    obtain ⟨hupper, hnone⟩ := visit?_low (hwf hsep).toPageTree
    refine ⟨?_, ?_⟩
    · intro h
      obtain ⟨L, hL⟩ := hupper (h hsep)
      obtain ⟨M, hM⟩ := scan?_returns (hwf hsep) (fun _ => perms_of_user) (fun _ => userPa?_ok)
      exact ⟨_, Returns₂.congr hdef (returns_andThen hL
        (returns_andThen hM.outer (Returns₂.pure _)))⟩
    · intro _ hno
      exact Returns₂.congr hdef (returns_andThen_error (hnone hno) _)
  · have hsep : ¬ Separate k pid := fun h => hs ((separate_iff h1 h2).mpr h)
    refine ⟨fun _ => ⟨u, (Returns₂.pure _).congr fun _ _ => if_neg hs⟩, ?_⟩
    intro h
    exact absurd h hsep

/-- The passes over the processes return, and shift within bounds exactly for the named
    tables. -/
theorem refreshProcs?_returns {pids : List Nat} (hpids : ∀ pid ∈ pids, 1 ≤ pid ∧ pid < maxNProc)
    (hwf : ∀ pid, Separate k pid → WellFormed k.mem (k.ptable pid).pagetable) (u : Usage) :
    ((∀ pid ∈ pids, Separate k pid → HasUpper k.mem (k.ptable pid).pagetable) →
        ∃ u', Returns₂ (fun inner outer => refreshProcs? k inner outer pids u) (.ok u'))
      ∧ ((∃ pid ∈ pids, Separate k pid ∧ ¬ HasUpper k.mem (k.ptable pid).pagetable) →
        Returns₂ (fun inner outer => refreshProcs? k inner outer pids u) (.error (.shift 64))) := by
  induction pids generalizing u with
  | nil =>
      refine ⟨fun _ => ⟨u, Returns₂.pure _⟩, ?_⟩
      rintro ⟨pid, hpid, -⟩
      cases hpid
  | cons pid pids ih =>
      obtain ⟨h1, h2⟩ := hpids pid List.mem_cons_self
      obtain ⟨hok, htrap⟩ := refreshProc?_returns h1 h2 (hwf pid) u
      have hrest := fun u' => ih (fun p hp => hpids p (List.mem_cons_of_mem _ hp)) u'
      refine ⟨?_, ?_⟩
      · intro hall
        obtain ⟨u', hu'⟩ := hok (hall pid List.mem_cons_self)
        obtain ⟨u'', hu''⟩ := (hrest u').1 fun p hp => hall p (List.mem_cons_of_mem _ hp)
        exact ⟨u'', returns_andThen hu' hu''⟩
      · intro hsome
        by_cases hthis : Separate k pid ∧ ¬ HasUpper k.mem (k.ptable pid).pagetable
        · exact returns_andThen_error (htrap hthis.1 hthis.2) _
        · obtain ⟨u', hu'⟩ := hok fun hsep => by_contra fun hno => hthis ⟨hsep, hno⟩
          refine returns_andThen hu' ((hrest u').2 ?_)
          obtain ⟨p, hp, hbad⟩ := hsome
          rcases List.mem_cons.mp hp with rfl | hp
          · exact absurd hbad hthis
          · exact ⟨p, hp, hbad⟩

/-- Every process with a page table of its own has page-table pages in the
    upper half, or `refresh` fails before it looks at the processes. -/
def UpperPages (k : Kernel) (page : Word) (u : Usage) : Prop :=
  (u.v = 0#64 ∧ page = 0#64) ∨ ∀ pid, Separate k pid → HasUpper k.mem (k.ptable pid).pagetable

/-- What the checked `refresh` returns. -/
theorem refresh?_spec (hkernel : WellFormed k.mem k.kernelPagetable)
    (hwf : ∀ pid, Separate k pid → WellFormed k.mem (k.ptable pid).pagetable) (page : Word)
    (u : Usage) :
    (UpperPages k page u → ∃ r, Returns₂ (refresh? k page u) r ∧ NoShift r)
      ∧ (¬ UpperPages k page u → Returns₂ (refresh? k page u) (.error (.shift 64))) := by
  -- without an array there is nothing to do
  by_cases hv : u.v = 0#64 ∧ page = 0#64
  · refine ⟨fun _ => ⟨_, (Returns₂.pure _).congr fun _ _ => if_pos ?_, ?_⟩,
      fun h => absurd (Or.inl hv) h⟩
    · rw [if_pos hv.1]
      exact hv.2
    · intro lbits h
      cases h
  have hne : (if u.v = 0#64 then page else u.v) ≠ 0#64 := by
    by_cases h0 : u.v = 0#64
    · rw [if_pos h0]
      exact fun hp => hv ⟨h0, hp⟩
    · rw [if_neg h0]
      exact h0
  -- the four steps of `refresh`
  have hdef : ∀ inner outer, refresh? k page u inner outer
      = andThen (visit? k.mem (fun it => .ok (!it.done)) k.kernelPagetable inner outer) fun L =>
        andThen (refreshProcs? k inner outer (List.range' 1 (maxNProc - 1))
          (k.markKernelTables (if u.v = 0#64 then page else u.v) L
            (.cleared (if u.v = 0#64 then page else u.v)))) (refreshByOwner? k outer) :=
    fun _ _ => if_neg hne
  -- the kernel's tables are visited up to the end, without the test of the address
  generalize (if u.v = 0#64 then page else u.v) = v at hdef
  obtain ⟨L, hL, -⟩ := visit_all hkernel.toPageTree
  have hL? : Returns₂ (fun inner outer =>
      visit? k.mem (fun it => .ok (!it.done)) k.kernelPagetable inner outer) (.ok L) :=
    (returns_ok hL).congr fun inner outer => visit?_checked _ inner outer
  obtain ⟨hok, htrap⟩ := refreshProcs?_returns (fun pid h => mem_pids.mp h) hwf
    (k.markKernelTables v L (.cleared v))
  refine ⟨?_, ?_⟩
  · intro h
    obtain ⟨u', hu'⟩ := hok fun pid _ => h.resolve_left hv pid
    have hlast : ∃ u'', Returns₂ (fun _ outer => refreshByOwner? k outer u') (.ok u'') := by
      by_cases hsep : u'.separateTables = true
      · exact ⟨u', (Returns₂.pure _).congr fun _ _ => if_pos hsep⟩
      · obtain ⟨M, hM⟩ := scan?_returns hkernel (fun _ => perms_of_owned) fun _ => ownedPa?_ok
        exact ⟨_, (returns_andThen hM.outer (Returns₂.pure _)).congr fun _ _ => if_neg hsep⟩
    obtain ⟨u'', hu''⟩ := hlast
    exact ⟨_, (returns_andThen hL? (returns_andThen hu' hu'')).congr hdef, noShift_ok _⟩
  · -- a process whose visit shifts too far ends it
    intro h
    obtain ⟨pid, hpid⟩ := not_forall.mp fun hall => h (Or.inr hall)
    obtain ⟨hsep, hno⟩ := Classical.not_imp.mp hpid
    exact (returns_andThen hL? (returns_andThen_error
      (htrap ⟨pid, mem_pids.mpr ⟨hsep.1, hsep.2.1⟩, hsep, hno⟩) _)).congr hdef

/-- **`refresh`** shifts by 64 unless every process with a page table of its
    own has a page-table page in the upper half. -/
theorem refresh_shift_iff (hkernel : WellFormed k.mem k.kernelPagetable)
    (hwf : ∀ pid, Separate k pid → WellFormed k.mem (k.ptable pid).pagetable) (page : Word)
    (u : Usage) :
    ∃ r, Returns₂ (refresh? k page u) r ∧ (NoShift r ↔ UpperPages k page u) := by
  obtain ⟨hok, htrap⟩ := refresh?_spec hkernel hwf page u
  by_cases hupper : UpperPages k page u
  · obtain ⟨r, hret, hr⟩ := hok hupper
    exact ⟨r, hret, fun _ => hupper, fun _ => hr⟩
  · exact ⟨_, htrap hupper, fun hs => absurd rfl (hs 64), fun h => absurd h hupper⟩

/-- **NO SHIFT BY 64**: in `refresh`, if every process with a page table of its
    own has a page-table page in the upper half; in `range_perm`, if it does
    not run off the end of the address space. -/
theorem lbits_mask_defined_iff (hkernel : WellFormed k.mem k.kernelPagetable)
    (hwf : ∀ pid, Separate k pid → WellFormed k.mem (k.ptable pid).pagetable) (page : Word)
    (u : Usage) :
    (∃ r, Returns₂ (refresh? k page u) r ∧ (NoShift r ↔ UpperPages k page u))
      ∧ ∀ root s, WellFormed s.mem root → Reached root s → s.it.done = false → ∀ sz,
          ∃ r, Returns (rangePerm? s.mem s.it sz) r
            ∧ (NoShift r ↔ ¬ RunsOff s.mem root s.it.va.toNat sz.toNat) := by
  refine ⟨refresh_shift_iff hkernel hwf page u, ?_⟩
  intro root s hroot hs hd sz
  exact rangePerm_shift_iff hroot (hs.walked hd) sz

theorem emptyTable_wellFormed : WellFormed smallTable 0x6000#64 := by
  refine { toPageTree := emptyTable_pageTree, low := ?_ }
  intro p t i _ _ _ _
  rcases smallTable_cases (entryPtr t (BitVec.ofNat 64 i)) with
    ⟨-, h⟩ | ⟨-, h⟩ | ⟨-, h⟩ | ⟨-, h⟩ | ⟨-, h⟩ | ⟨-, h⟩ | h <;> rw [h] <;> decide

/-- The example's tables are well formed. -/
theorem smallKernel_wellFormed (pid : Nat) (h : Separate smallKernel pid) :
    WellFormed smallKernel.mem (smallKernel.ptable pid).pagetable := by
  rw [smallKernel_separate h]
  exact smallTable_wellFormed

/-- The theorem's conditions can be met. -/
theorem lbits_mask_defined_iff_small :
    (∃ r, Returns₂ (refresh? smallKernel 0x7000#64 (.cleared 0#64)) r
        ∧ (NoShift r ↔ UpperPages smallKernel 0x7000#64 (.cleared 0#64)))
      ∧ ∀ root s, WellFormed s.mem root → Reached root s → s.it.done = false → ∀ sz,
          ∃ r, Returns (rangePerm? s.mem s.it sz) r
            ∧ (NoShift r ↔ ¬ RunsOff s.mem root s.it.va.toNat sz.toNat) :=
  lbits_mask_defined_iff emptyTable_wellFormed smallKernel_wellFormed _ _

/-- No process of `smallKernel` has a page-table page in the upper half. -/
theorem smallKernel_shifts :
    WellFormed smallKernel.mem smallKernel.kernelPagetable
      ∧ (∀ pid, Separate smallKernel pid →
          WellFormed smallKernel.mem (smallKernel.ptable pid).pagetable)
      ∧ Returns₂ (refresh? smallKernel 0x7000#64 (.cleared 0#64)) (.error (.shift 64)) := by
  refine ⟨emptyTable_wellFormed, smallKernel_wellFormed, ?_⟩
  have hno : ¬ HasUpper smallTable 0x1000#64 := by
    rintro ⟨i, c, hlo, hhi, hc⟩
    rcases smallTable_child (show PageAligned 0x1000#64 from rfl) hhi hc with
      ⟨-, rfl, -⟩ | ⟨-, rfl, -⟩ | ⟨-, rfl, -⟩ | ⟨-, rfl, -⟩ <;> omega
  refine (refresh?_spec emptyTable_wellFormed smallKernel_wellFormed 0x7000#64 (.cleared 0#64)).2 ?_
  rintro (⟨-, h⟩ | h)
  · cases h
  · exact hno (h 1 ⟨by decide, by decide, by decide, by decide, by decide⟩)

end RefreshShifts
