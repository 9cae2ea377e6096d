import Cs61.Mappings

/-! # Runs of a `vmiter` — a cached walk is never stale

    A run constructs an iterator and then calls its operations in any order.
    The iterator keeps a pointer and permissions from earlier walks, and
    `try_map` changes the table under it.  The invariant is that the iterator
    is `Coherent` with the table as it is now; every operation keeps it. -/

namespace VmRuns

open PageTable PostOrder VmIter WordMasks VmWalk VmQueries TableEdits TryMap Mappings
open Vmiter (mapPa)

variable {mem : Mem} {root : Word}

/-- The memory and the iterator. -/
structure State where
  mem : Mem
  it : Vmiter

/-- The operations on an iterator. -/
inductive Op where
  | find (va : Word)
  | addAssign (delta : Word)
  | subAssign (delta : Word)
  | inc
  | dec
  | next
  | nextRange
  | tryMap (kalloc : Vmiter.Kalloc) (pa : Word) (perm : BitVec 32)

/-- The call of an operation. -/
def Op.call (s : State) : Op → Except Fault State
  | .find va => (s.it.find s.mem va).map (fun it => { s with it := it })
  | .addAssign delta => (s.it.addAssign s.mem delta).map (fun it => { s with it := it })
  | .subAssign delta => (s.it.subAssign s.mem delta).map (fun it => { s with it := it })
  | .inc => (s.it.inc s.mem).map (fun it => { s with it := it })
  | .dec => (s.it.dec s.mem).map (fun it => { s with it := it })
  | .next => (s.it.next s.mem).map (fun it => { s with it := it })
  | .nextRange => (s.it.nextRange s.mem).map (fun it => { s with it := it })
  | .tryMap kalloc pa perm =>
      (s.it.tryMap kalloc s.mem pa perm).map (fun r => { mem := r.mem, it := r.it })

/-- The calls a client may make. -/
def Op.Allowed (root : Word) (s : State) : Op → Prop
  | .next => s.it.done = false
  | .nextRange => s.it.done = false
  | .tryMap kalloc pa perm =>
      s.it.done = false ∧ (perm = 0#32 ∨ perm.getLsbD 0 = true) ∧ pa.toNat < 2 ^ 32
        ∧ KallocFresh kalloc 0 s.mem root
  | _ => True

/-- Permissions are not negative `int`s. -/
def Op.PlainPerm : Op → Prop
  | .tryMap _ _ perm => perm.toNat < 2 ^ 31
  | _ => True

/-- A finite sequence of calls that return. -/
inductive Run (root : Word) (s₀ : State) : List Op → State → Prop where
  | start : Run root s₀ [] s₀
  | call {ops : List Op} {s s' : State} (op : Op) (h : Run root s₀ ops s)
      (hallowed : op.Allowed root s) (hcall : op.call s = .ok s') : Run root s₀ (op :: ops) s'

/-- The table is a tree, and the iterator stands on it. -/
structure Inv (root : Word) (s : State) : Prop where
  tree : PageTree s.mem root
  coherent : Coherent s.mem root s.it

/-! ## Moves -/

theorem map_ok {α β : Type} {x : Except Fault α} {f : α → β} {b : β}
    (h : x.map f = .ok b) : ∃ a, x = .ok a ∧ b = f a := by
  cases x with
  | error e => cases h
  | ok a => exact ⟨a, rfl, (Except.ok.inj h).symm⟩

/-- A new iterator is coherent. -/
theorem new_coherent (hroot : PageAligned root) {va : Word} {it : Vmiter}
    (h : Vmiter.new mem root va = .ok it) : Coherent mem root it := by
  obtain rfl := checked_eq h
  exact Or.inl (fresh_walked hroot va).1

/-- Moving an iterator keeps it coherent. -/
theorem findImpl_coherent (hroot : PageAligned root) {it it' : Vmiter} {va : Word}
    {stepping : Bool} (h : Coherent mem root it) (hok : it.findImpl mem va stepping = .ok it') :
    Coherent mem root it' := by
  by_cases hend : (stepping && va == 0#64) = true
  · -- stepped past the top of the address space
    rw [Bool.and_eq_true, beq_iff_eq] at hend
    obtain ⟨rfl, rfl⟩ := hend
    rw [findImpl_ended (Coherent.pt_eq (Or.inl h))] at hok
    exact Or.inr (Except.ok.inj hok).symm
  · rw [findImpl_eq hroot h (Bool.eq_false_iff.mpr hend)] at hok
    exact new_coherent hroot hok

/-- So does `find`. -/
theorem find_coherent (hroot : PageAligned root) {it it' : Vmiter} {va : Word}
    (h : Coherent mem root it) (hok : it.find mem va = .ok it') : Coherent mem root it' := by
  rw [Vmiter.find] at hok
  split at hok
  · exact findImpl_coherent hroot h hok
  · rw [← Except.ok.inj hok]
    exact h

/-- The moves of an iterator keep the invariant. -/
theorem Inv.move {s s' : State} {x : Except Fault Vmiter} (h : Inv root s)
    (hmove : ∀ it', x = .ok it' → Coherent s.mem root it')
    (hok : x.map (fun it => { s with it := it }) = .ok s') : Inv root s' ∧ s'.mem = s.mem := by
  obtain ⟨it', hx, rfl⟩ := map_ok hok
  exact ⟨⟨h.tree, hmove it' hx⟩, rfl⟩

/-! ## `try_map` -/

theorem Coherent.walked {it : Vmiter} (h : Coherent mem root it) (hd : it.done = false) :
    Walked mem root it := by
  rcases h with hw | rfl
  · exact hw
  · exact absurd hd (show ¬ (ended root).done = false from Bool.noConfusion)

/-- A new mapping off the canonical addresses fails the assertion against `perm_`. -/
theorem perm_of_off {it : Vmiter} {pa perm : Word} (hoff : OffPath root it)
    (hcheck : it.checkMap pa perm = .ok ()) : perm.getLsbD 0 = false := by
  obtain ⟨-, -, -, hassert⟩ := checkMap_ok hcheck
  have hbit := congrArg (fun x => x.getLsbD 0) hassert
  rw [hoff.perm] at hbit
  simpa [ptePWU, pteP, pteW, pteU] using hbit

theorem canonical_or_zero {it : Vmiter} {kalloc : Vmiter.Kalloc} {pa : Word} {perm : BitVec 32}
    {r : Vmiter.Mapped} (hw : Walked mem root it) (hperm : perm = 0#32 ∨ perm.getLsbD 0 = true)
    (hr : it.tryMap kalloc mem pa perm = .ok r) :
    vaIsCanonical it.va = true ∨ perm.signExtend 64 = 0#64 := by
  rcases hw with ⟨d, hon, -⟩ | hoff
  · exact Or.inl hon.canonical
  · rcases hperm with rfl | hp
    · exact Or.inr rfl
    · obtain ⟨_, hcheck, -⟩ := bind_eq_ok.mp hr
      have hbit := perm_of_off hoff hcheck
      rw [BitVec.getLsbD_signExtend, if_pos (by omega), hp] at hbit
      exact absurd hbit (by decide)

/-- Where the last write leaves the iterator. -/
theorem walked_writeLeaf {p : List Nat} {i : Nat} {t v : Word} {it : Vmiter}
    (h : LeafSite mem root p i t) (hon : OnPath mem root 3 it) :
    Walked (writeLeaf mem t i v) root it := by
  refine Or.inl ⟨3, (writeLeaf_editAt h v).onPath hon, ?_⟩
  rw [Vmiter.descends, hon.lbits]
  rfl

/-- A low physical address and a non-negative `int` make a low entry. -/
theorem entry_low {pa : Word} {perm : BitVec 32} (hpa : pa.toNat < 2 ^ 32)
    (hperm : perm.toNat < 2 ^ 31) :
    ((mapPa pa (perm.signExtend 64) ||| perm.signExtend 64) &&& ptePAMask).toNat < 2 ^ 32 := by
  have hext : (perm.signExtend 64).toNat < 2 ^ 32 := by
    have hmsb : perm.msb = false := by
      rw [BitVec.msb_eq_decide]
      exact decide_eq_false (by omega)
    rw [BitVec.signExtend_eq_setWidth_of_msb_false hmsb, BitVec.toNat_setWidth]
    omega
  have hmap : (mapPa pa (perm.signExtend 64)).toNat < 2 ^ 32 := by
    rw [mapPa]
    split
    · decide
    · exact hpa
  rw [BitVec.toNat_and, BitVec.toNat_or]
  exact Nat.lt_of_le_of_lt Nat.and_le_left (Nat.or_lt_two_pow hmap hext)

/-- `try_map` keeps the invariant, and low tables low. -/
theorem Inv.tryMap {s s' : State} {kalloc : Vmiter.Kalloc} {pa : Word} {perm : BitVec 32}
    (h : Inv root s) (hallowed : (Op.tryMap kalloc pa perm).Allowed root s)
    (hok : (Op.tryMap kalloc pa perm).call s = .ok s') :
    Inv root s' ∧ (perm.toNat < 2 ^ 31 → PhysLow s.mem root → PhysLow s'.mem root) := by
  obtain ⟨hd, hperm, hpa, hk⟩ := hallowed
  obtain ⟨r, hr, rfl⟩ := map_ok hok
  have hw := Coherent.walked h.coherent hd
  rcases tryMap_cases pa h.tree hw (canonical_or_zero hw hperm hr) hk with
    ⟨e, d, herr⟩ | ⟨g, r', hr', -, post, hout⟩
  · rw [hr] at herr
    cases herr
  · obtain rfl := Except.ok.inj (hr.symm.trans hr')
    cases hout with
    | failed _ heq =>
        rw [heq]
        exact ⟨⟨post.tree, Or.inl post.walked⟩, fun _ => post.low⟩
    | nothing _ _ heq =>
        rw [heq]
        exact ⟨⟨post.tree, Or.inl post.walked⟩, fun _ => post.low⟩
    | wrote t _ _ hon hsite heq =>
        rw [heq]
        refine ⟨⟨writeLeaf_tree hsite _, Or.inl (walked_writeLeaf hsite hon)⟩, ?_⟩
        exact fun hplain hlow => writeLeaf_low hsite (entry_low hpa hplain) (post.low hlow)

/-! ## Runs -/

/-- **ONE CALL** keeps the invariant. -/
theorem Inv.call {s s' : State} {op : Op} (h : Inv root s) (hallowed : op.Allowed root s)
    (hok : op.call s = .ok s') :
    Inv root s' ∧ (op.PlainPerm → PhysLow s.mem root → PhysLow s'.mem root) := by
  have hroot := h.tree.aligned
  -- all but `try_map` leave the memory as it is
  have hmoved : ∀ {x : Except Fault Vmiter}, (∀ it', x = .ok it' → Coherent s.mem root it') →
      x.map (fun it => { s with it := it }) = .ok s' →
      Inv root s' ∧ (op.PlainPerm → PhysLow s.mem root → PhysLow s'.mem root) := by
    intro x hx hok
    obtain ⟨hinv, hmem⟩ := h.move hx hok
    rw [hmem]
    exact ⟨hinv, fun _ hlow => hlow⟩
  cases op with
  | find va => exact hmoved (fun _ => find_coherent hroot h.coherent) hok
  | addAssign delta => exact hmoved (fun _ => find_coherent hroot h.coherent) hok
  | subAssign delta => exact hmoved (fun _ => find_coherent hroot h.coherent) hok
  | inc => exact hmoved (fun _ => find_coherent hroot h.coherent) hok
  | dec => exact hmoved (fun _ => find_coherent hroot h.coherent) hok
  | next => exact hmoved (fun _ => findImpl_coherent hroot h.coherent) hok
  | nextRange => exact hmoved (fun _ => findImpl_coherent hroot h.coherent) hok
  | tryMap kalloc pa perm => exact h.tryMap hallowed hok

/-- Every run keeps the invariant. -/
theorem Run.inv {s₀ s : State} {ops : List Op} (h : Run root s₀ ops s) (h₀ : Inv root s₀) :
    Inv root s ∧ ((∀ op ∈ ops, op.PlainPerm) → PhysLow s₀.mem root → PhysLow s.mem root) := by
  induction h with
  | start => exact ⟨h₀, fun _ hlow => hlow⟩
  | call op _ hallowed hcall ih =>
      obtain ⟨hinv, hlow⟩ := ih.1.call hallowed hcall
      refine ⟨hinv, ?_⟩
      intro hplain hlow₀
      refine hlow (hplain op List.mem_cons_self) (ih.2 ?_ hlow₀)
      exact fun op' hop' => hplain op' (List.mem_cons_of_mem _ hop')

/-- **NEVER STALE**: whatever the calls were, an iterator that is not done has
    the fields that the constructor's walk to its address arrives at; and the
    constructor succeeds, unless a negative permission was written. -/
theorem run_eq_new {mem₀ : Mem} {va₀ : Word} {it₀ : Vmiter} {ops : List Op} {s : State}
    (hwf : WellFormed mem₀ root) (hit : Vmiter.new mem₀ root va₀ = .ok it₀)
    (h : Run root { mem := mem₀, it := it₀ } ops s) (hd : s.it.done = false) :
    fresh s.mem root s.it.va = s.it
      ∧ ((∀ op ∈ ops, op.PlainPerm) → Vmiter.new s.mem root s.it.va = .ok s.it) := by
  have h₀ : Inv root { mem := mem₀, it := it₀ } :=
    ⟨hwf.toPageTree, new_coherent hwf.aligned hit⟩
  obtain ⟨hinv, hlow⟩ := h.inv h₀
  have hw := Coherent.walked hinv.coherent hd
  have hfresh := (hw.eq_fresh hinv.tree.aligned).symm
  refine ⟨hfresh, ?_⟩
  intro hplain
  rw [new_eq, hfresh]
  exact hw.checked_ok (hlow hplain hwf.low)

/-- A run that links three pages, maps, and steps to the next page. -/
theorem run_eq_new_small :
    ∃ (it₀ : Vmiter) (s : State), Vmiter.new smallTable 0x1000#64 0x8000000000#64 = .ok it₀
      ∧ Run 0x1000#64 { mem := smallTable, it := it₀ }
          [.addAssign 0x1000#64, .tryMap spareKalloc 0x9000#64 5#32] s
      ∧ fresh s.mem 0x1000#64 s.it.va = s.it
      ∧ ((∀ op ∈ [Op.addAssign 0x1000#64, .tryMap spareKalloc 0x9000#64 5#32], op.PlainPerm) →
          Vmiter.new s.mem 0x1000#64 s.it.va = .ok s.it) := by
  have hit : Vmiter.new smallTable 0x1000#64 0x8000000000#64
      = .ok { pt := 0x1000#64, pep := .slot 0x1008#64, lbits := 39, perm := 0xFFF#64,
              va := 0x8000000000#64 } := rfl
  have hcalls : ((Op.tryMap spareKalloc 0x9000#64 5#32).call
      { mem := smallTable
        it := { pt := 0x1000#64, pep := .slot 0x1008#64, lbits := 39, perm := 0xFFF#64,
                va := 0x8000000000#64 } }).bind (fun s =>
      ((Op.addAssign 0x1000#64).call s).map (fun s => s.it.done)) = .ok false := rfl
  obtain ⟨s, hmap, hadd⟩ := bind_eq_ok.mp hcalls
  obtain ⟨s', hadd, hd⟩ := map_ok hadd
  have hrun : Run 0x1000#64 _ [.addAssign 0x1000#64, .tryMap spareKalloc 0x9000#64 5#32] s' :=
    .call (.addAssign 0x1000#64)
      (.call (.tryMap spareKalloc 0x9000#64 5#32) .start
        ⟨rfl, Or.inr (by decide), by decide, spareKalloc_fresh⟩ hmap) trivial hadd
  exact ⟨_, s', hit, hrun, run_eq_new smallTable_wellFormed hit hrun hd.symm⟩

/-! ## Calls that do not return -/

/-- With the tables in low memory, no move fails. -/
theorem findImpl_ok (hroot : PageAligned root) (hlow : PhysLow mem root) {it : Vmiter}
    (h : Coherent mem root it) (va : Word) (stepping : Bool) :
    ∃ it', it.findImpl mem va stepping = .ok it' := by
  by_cases hend : (stepping && va == 0#64) = true
  · rw [Bool.and_eq_true, beq_iff_eq] at hend
    obtain ⟨rfl, rfl⟩ := hend
    exact ⟨_, findImpl_ended (Coherent.pt_eq (Or.inl h))⟩
  · rw [findImpl_eq hroot h (Bool.eq_false_iff.mpr hend)]
    exact ⟨_, new_ok hroot hlow va⟩

/-- Nor does `find`. -/
theorem find_ok (hroot : PageAligned root) (hlow : PhysLow mem root) {it : Vmiter}
    (h : Coherent mem root it) (va : Word) : ∃ it', it.find mem va = .ok it' := by
  rw [Vmiter.find]
  split
  · exact findImpl_ok hroot hlow h va false
  · exact ⟨it, rfl⟩

/-- **NO PANIC**: an allowed call on a low table fails only in the assertions
    of `try_map`. -/
theorem Inv.call_error {s : State} {op : Op} {f : Fault} (h : Inv root s)
    (hlow : PhysLow s.mem root) (hallowed : op.Allowed root s) (herr : op.call s = .error f) :
    (∃ kalloc pa perm, op = .tryMap kalloc pa perm) ∧ ∃ e d, f = .assertFail e d := by
  have hroot := h.tree.aligned
  have hmoved : ∀ {x : Except Fault Vmiter}, (∃ it', x = .ok it') →
      x.map (fun it => ({ s with it := it } : State)) ≠ .error f := by
    rintro x ⟨it', rfl⟩ hx
    cases hx
  -- every move succeeds; only `try_map` can fail
  cases op with
  | find va => exact absurd herr (hmoved (find_ok hroot hlow h.coherent _))
  | addAssign delta => exact absurd herr (hmoved (find_ok hroot hlow h.coherent _))
  | subAssign delta => exact absurd herr (hmoved (find_ok hroot hlow h.coherent _))
  | inc => exact absurd herr (hmoved (find_ok hroot hlow h.coherent _))
  | dec => exact absurd herr (hmoved (find_ok hroot hlow h.coherent _))
  | next => exact absurd herr (hmoved (findImpl_ok hroot hlow h.coherent _ _))
  | nextRange => exact absurd herr (hmoved (findImpl_ok hroot hlow h.coherent _ _))
  | tryMap kalloc pa perm =>
      refine ⟨⟨kalloc, pa, perm, rfl⟩, ?_⟩
      obtain ⟨hd, hperm, -, hk⟩ := hallowed
      have hw := Coherent.walked h.coherent hd
      have hcall : s.it.tryMap kalloc s.mem pa perm = .error f := by
        cases hr : s.it.tryMap kalloc s.mem pa perm with
        | error f' =>
            rw [Op.call, hr] at herr
            exact congrArg Except.error (Except.error.inj herr)
        | ok r => rw [Op.call, hr] at herr; cases herr
      by_cases hc : vaIsCanonical s.it.va = true ∨ perm.signExtend 64 = 0#64
      · rcases tryMap_cases pa h.tree hw hc hk with ⟨e, d, herr'⟩ | ⟨g, r, hr, -⟩
        · exact ⟨e, d, Except.error.inj (hcall.symm.trans herr')⟩
        · rw [hcall] at hr
          cases hr
      · -- a mapping in the non-canonical hole fails before the loop
        rcases bind_eq_error hcall with hcheck | ⟨u, hcheck, -⟩
        · exact checkMap_error hcheck
        · rcases hw with ⟨d, hon, -⟩ | hoff
          · exact absurd (Or.inl hon.canonical) hc
          · have hbit := perm_of_off hoff hcheck
            rcases hperm with rfl | hp
            · exact absurd (Or.inr rfl) hc
            · rw [BitVec.getLsbD_signExtend, if_pos (by omega), hp] at hbit
              exact absurd hbit (by decide)

end VmRuns
