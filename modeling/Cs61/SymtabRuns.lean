import Cs61.SymtabRef

/-! # Runs of `rewrite_symtabref`

    The loop goes from one symbol with the name to the next.  It is followed index
    by index: `rest` is what is left of a run before the symbols from `m` on are
    searched.  The records of the symbols before `m` are then filled in
    (`reaches`), if each of them was judged as it should be. -/

namespace ElfFile

open ByteFiles Checks LoopRules

/-! ## The table that is found -/

/-- An accepted file whose symbol table was looked for and found. -/
def Buffer.withTable (b : Buffer) : ElfInfo := { b.accepted with cache := some b.symbols.known }

variable {b : Buffer} {e : ElfInfo}

/-- With a symbol table, or without one. -/
theorem symtab_cases (hv : Valid b) :
    (b.accepted.symtab = .ok b.accepted ∧ b.symbols = ⟨0, 0, 0⟩)
      ∨ (b.accepted.symtab = .ok b.withTable ∧ Prepared b b.symbols b.withTable) := by
  have hready := ready_accepted hv
  have hok := hv.header
  obtain ⟨i, hfind, hi⟩ := ElfInfo.findSection_gives hready ElfInfo.symtabName
  obtain ⟨-, htype, hoffset, hsize, hlink⟩ := hok.fields_inside hi
  -- a section of the name is tested for its type
  have htest : b.accepted.test (shType b.shoff i) (· = shtSymtab)
      = .ok (decide (b.val (shType b.shoff i) = shtSymtab)) := by
    rw [Buffer.test, Buffer.get_ok (b := b.accepted.toBuffer) htype]
    rfl
  have hsymtab : b.accepted.symtab
      = both (.ok (i ≠ 0)) (b.accepted.test (shType b.shoff i) (· = shtSymtab)) >>= fun yes =>
          if yes then do
            let symtab ← b.accepted.get (shOffset b.shoff i)
            let nsymtab := (← b.accepted.get (shSize b.shoff i)) / sizeofSymbol % 2 ^ 32
            let strtabndx ← b.accepted.get (shLink b.shoff i)
            let symstrtab ← b.accepted.get (shOffset b.shoff strtabndx)
            .ok { b.accepted with cache := some ⟨symtab, nsymtab, symstrtab⟩ }
          else .ok b.accepted := by
    show (b.accepted.findSection ElfInfo.symtabName >>= _) = _
    rw [hfind]
    rfl
  rw [hsymtab, htest]
  -- the table is found, and with it its strings, or there is none
  by_cases htable : i ≠ 0 ∧ b.val (shType b.shoff i) = shtSymtab
  · have hsymbols : b.symbols = b.tableOf i := by
      rw [Buffer.symbols, hfind]
      exact if_pos htable
    obtain ⟨hlink_lt, -⟩ := (hv.sections i hi).link htable.2
    obtain ⟨-, -, hstrings, -⟩ := hok.fields_inside hlink_lt
    refine Or.inr ⟨?_, hv, rfl, rfl, rfl, i, hi, htable.2, hsymbols⟩
    rw [decide_eq_true htable.2, decide_eq_true htable.1]
    show (b.accepted.get _ >>= _) = _
    rw [Buffer.get_bind (b := b.accepted.toBuffer) hoffset,
      Buffer.get_bind (b := b.accepted.toBuffer) hsize,
      Buffer.get_bind (b := b.accepted.toBuffer) hlink, Buffer.withTable, hsymbols]
    exact Buffer.get_bind (b := b.accepted.toBuffer) hstrings _
  · have hsymbols : b.symbols = ⟨0, 0, 0⟩ := by
      rw [Buffer.symbols, hfind]
      exact if_neg htable
    refine Or.inl ⟨?_, hsymbols⟩
    by_cases hi0 : i ≠ 0
    · rw [decide_eq_true hi0, decide_eq_false fun hsym => htable ⟨hi0, hsym⟩]
      rfl
    · rw [decide_eq_false hi0]
      rfl

/-- `find_symbol` leaves what `symtab()` leaves. -/
theorem findSymbol_file {e' : ElfInfo} {name : CString} {after r : Option Nat}
    (h : e.findSymbol name after = .ok (r, e')) : e.symtab = .ok e' := by
  rw [ElfInfo.findSymbol] at h
  cases hsymtab : e.symtab with
  | error s =>
      rw [hsymtab] at h
      cases h
  | ok e₁ =>
      rw [hsymtab] at h
      dsimp only [bind, Except.bind] at h
      split at h
      · exact congrArg _ (Prod.mk.inj (Except.ok.inj h)).2
      · split at h
        · cases h
        · exact congrArg _ (Prod.mk.inj (Except.ok.inj h)).2

/-- What lookups leave. -/
theorem looked_cases (hv : Valid b) (h : Looked b.accepted e) :
    e = b.accepted ∨ (e = b.withTable ∧ Prepared b b.symbols b.withTable) := by
  have hstep : ∀ e' e'', (e' = b.accepted ∨ (e' = b.withTable ∧ Prepared b b.symbols b.withTable)) →
      e'.symtab = .ok e'' →
        e'' = b.accepted ∨ (e'' = b.withTable ∧ Prepared b b.symbols b.withTable) := by
    rintro e' e'' (rfl | ⟨rfl, hprepared⟩) hcall
    · rcases symtab_cases hv with ⟨hsame, -⟩ | ⟨htable, hprepared⟩
      · exact Or.inl (Except.ok.inj (hcall.symm.trans hsame))
      · exact Or.inr ⟨Except.ok.inj (hcall.symm.trans htable), hprepared⟩
    · exact Or.inr ⟨(Except.ok.inj hcall).symm, hprepared⟩
  induction h with
  | start => exact Or.inl rfl
  | symtab _ hcall ih => exact hstep _ _ ih hcall
  | findSymbol _ hcall ih => exact hstep _ _ ih (findSymbol_file hcall)

/-- A search when the table is known. -/
theorem findSymbol_table {e' : ElfInfo} {c : SymtabCache} {name : CString} {after : Option Nat}
    (hsymtab : e.symtab = .ok e') (hcache : e'.cache = some c) : e.findSymbol name after
      = (e'.findSymbolFrom c name (ElfInfo.startAfter after)
          (c.nsymtab - ElfInfo.startAfter after) >>= fun sym => .ok (sym, e')) := by
  rw [ElfInfo.findSymbol, hsymtab]
  dsimp only [bind, Except.bind]
  rw [hcache]

/-- The table is looked for once. -/
theorem symtab_cached {c : SymtabCache} (hcache : e.cache = some c) : e.symtab = .ok e := by
  rw [ElfInfo.symtab, hcache]

/-! ## One symbol after the other -/

/-- The file with these records. -/
def ElfInfo.withFilled (e : ElfInfo) (x : Filled) : ElfInfo := e.rewritten x.data x.changed

/-- The variables of the loop. -/
def Filled.state (e : ElfInfo) (x : Filled) (sym : Option Nat) : Rewrite :=
  ⟨e.withFilled x, x.loadaddr, x.count, sym⟩

/-- What is left of a run when the symbols from `m` on are searched. -/
def rest (e : ElfInfo) (q : Request) (c : SymtabCache) (x : Filled) (m budget : Nat) :
    Option (Except Halt (Nat × Nat × ElfInfo)) :=
  match (e.withFilled x).findSymbolFrom c q.name m (c.nsymtab - m) with
  | .error s => some (.error (.stop s))
  | .ok sym => run (Rewrite.body q) budget (x.state e sym)

section Steps

variable {t c : SymtabCache} {q : Request} {x : Filled} {loadaddr m j : Nat}

/-- Filling references in keeps the table prepared. -/
theorem Prepared.withFilled (h : Prepared b t e) (x : Filled) : Prepared b t (e.withFilled x) :=
  ⟨h.valid, h.size, h.sht, h.cache, h.table⟩

/-- A record touches nothing else. -/
theorem Filled.add_apart {n off p : Nat} (h : p < off ∨ off + sizeofSymtabref ≤ p) :
    (x.add q n off).data p = x.data p :=
  put_of_not_mem _ h

/-- Records that lie elsewhere leave a symbol as it is. -/
theorem kept_of_untouched (hclear : Untouched b t q.name) : Kept b t q loadaddr := by
  intro j hj hdue p hp
  have hupto : ∀ m, m ≤ j → (filled b t q loadaddr m).data p = b.data p := by
    intro m
    induction m with
    | zero => exact fun _ => rfl
    | succ m ih =>
        intro hm
        rw [filled]
        split_ifs with hgood
        · rw [Filled.add_apart (hclear m j hm hj hgood hdue p hp)]
          exact ih (Nat.le_of_succ_le hm)
        · exact ih (Nat.le_of_succ_le hm)
  exact hupto j (Nat.le_refl j)

/-- No records are counted that are not there. -/
theorem count_filled (m : Nat) : (filled b t q loadaddr m).count ≤ m := by
  induction m with
  | zero => exact Nat.le_refl 0
  | succ m ih =>
      rw [filled]
      split_ifs with hgood
      · exact Nat.succ_le_succ ih
      · exact Nat.le_succ_of_le ih

/-- A record that stands there already need not be written. -/
theorem withFilled_add (e : ElfInfo) (x : Filled) (q : Request) (n off : Nat) :
    (if num x.data off sizeofSymtabref = q.record (x.addrAt off) n then e.withFilled x
      else { (e.withFilled x).set ⟨off, sizeofSymtabref⟩ (q.record (x.addrAt off) n) with
        changed := true })
      = e.withFilled (x.add q n off) := by
  show _ = ({ e with
    data := put x.data off sizeofSymtabref (q.record (x.addrAt off) n)
    changed := x.changed || num x.data off sizeofSymtabref ≠ q.record (x.addrAt off) n } : ElfInfo)
  by_cases hsame : num x.data off sizeofSymtabref = q.record (x.addrAt off) n
  · rw [if_pos hsame, ← hsame, put_num, decide_eq_false (not_not.mpr rfl), Bool.or_false]
    rfl
  · rw [if_neg hsame, decide_eq_true hsame, Bool.or_true]
    rfl

/-- A record that is filled in. -/
theorem fillOut_eq (hin : j + sizeofSymtabref ≤ e.size) (hcount : x.count + 1 < 2 ^ 32)
    (sym : Option Nat) : (x.state e sym).fillOut q c j = .ok ((x.add q c.nsymtab j).state e sym) := by
  have haddr : (x.state e sym).loadaddrAt j = .ok (x.addrAt j) := by
    have hword : j + 8 ≤ e.size := Nat.le_trans (Nat.add_le_add_left (by decide) j) hin
    show (if x.loadaddr = 0 then (e.withFilled x).get ⟨j, 8⟩ else .ok x.loadaddr) = _
    rw [Buffer.get_ok (b := (e.withFilled x).toBuffer) hword, Filled.addrAt]
    split_ifs <;> rfl
  have hstref : (x.state e sym).file.get ⟨j, sizeofSymtabref⟩
      = .ok (num x.data j sizeofSymtabref) :=
    Buffer.get_ok (b := (e.withFilled x).toBuffer) hin
  rw [Rewrite.fillOut, haddr]
  show ((x.state e sym).file.get _ >>= _) = _
  rw [hstref]
  show Except.ok (Rewrite.mk _ (x.addrAt j) ((x.count + 1) % 2 ^ 32) sym) = _
  rw [Nat.mod_eq_of_lt hcount]
  exact congrArg (fun file => Except.ok (Rewrite.mk file (x.addrAt j) (x.count + 1) sym))
    (withFilled_add e x q c.nsymtab j)

/-- One index of the search. -/
theorem findSymbolFrom_succ (h : Prepared b t e) (hagrees : Agrees b t x.data j)
    (hj : j < t.nsymtab) (n : Nat) :
    (e.withFilled x).findSymbolFrom t.known q.name j (n + 1)
      = if Named b t q.name j then .ok (some j)
        else (e.withFilled x).findSymbolFrom t.known q.name (j + 1) n := by
  have hname : (e.withFilled x).get (stName t.symtab j) = .ok (b.val (stName t.symtab j)) :=
    get_entry (h.withFilled x) hagrees hj (Nat.le_refl _)
      (by simp only [stName, sizeofSymbol]; omega)
  rw [ElfInfo.findSymbolFrom, show t.known.symtab = t.symtab from rfl, hname]
  show ((e.withFilled x).sameString (nameOf b t j) q.name.bytes >>= _) = _
  rw [named_decides (h.withFilled x) hagrees hj]
  by_cases hnamed : Named b t q.name j
  · rw [if_pos hnamed, decide_eq_true hnamed]
    rfl
  · rw [if_neg hnamed, decide_eq_false hnamed]
    rfl

/-- The search behind a symbol. -/
theorem findSymbol_next (h : Prepared b t e) (hj : j < t.known.nsymtab) :
    (e.withFilled x).findSymbol q.name (some j)
      = ((e.withFilled x).findSymbolFrom t.known q.name (j + 1) (t.known.nsymtab - (j + 1)) >>=
          fun sym => .ok (sym, e.withFilled x)) := by
  have hcount : t.known.nsymtab < 2 ^ 32 := Nat.mod_lt _ (by decide)
  have hstart : ElfInfo.startAfter (some j) = j + 1 := Nat.mod_eq_of_lt (by omega)
  have hcache : (e.withFilled x).cache = some t.known := h.cache
  rw [findSymbol_table (symtab_cached hcache) hcache, hstart]

/-- What is left of a run from a symbol with the name on. -/
theorem rest_named (h : Prepared b t e) (hagrees : Agrees b t x.data m)
    (hm : m < t.known.nsymtab) (hnamed : Named b t q.name m) :
    rest e q t.known x m = fun budget => run (Rewrite.body q) budget (x.state e (some m)) := by
  funext budget
  obtain ⟨n, hn⟩ : ∃ n, t.known.nsymtab - m = n + 1 := ⟨t.known.nsymtab - m - 1, by omega⟩
  have hm' : m < t.nsymtab := Nat.lt_of_lt_of_le hm (Nat.mod_le _ _)
  rw [rest, hn, findSymbolFrom_succ h hagrees hm', if_pos hnamed]

/-- A symbol with another name. -/
theorem rest_unnamed (h : Prepared b t e) (hagrees : Agrees b t x.data m)
    (hm : m < t.known.nsymtab) (hnamed : ¬ Named b t q.name m) :
    rest e q t.known x m = rest e q t.known x (m + 1) := by
  funext budget
  obtain ⟨n, hn⟩ : ∃ n, t.known.nsymtab - m = n + 1 := ⟨t.known.nsymtab - m - 1, by omega⟩
  have hm' : m < t.nsymtab := Nat.lt_of_lt_of_le hm (Nat.mod_le _ _)
  rw [rest, hn, findSymbolFrom_succ h hagrees hm', if_neg hnamed, rest,
    show t.known.nsymtab - (m + 1) = n by omega]

/-- A pass that goes on to the next symbol. -/
theorem rest_again {y : Filled} {r : Except Halt (Nat × Nat × ElfInfo)} (h : Prepared b t e)
    (hagrees : Agrees b t x.data m) (hm : m < t.known.nsymtab) (hnamed : Named b t q.name m)
    (hvisit : (x.state e (some m)).visit q m = .ok (y.state e (some m))) :
    Returns (rest e q t.known x m) r ↔ Returns (rest e q t.known y (m + 1)) r := by
  rw [rest_named h hagrees hm hnamed]
  have hpass : (x.state e (some m)).pass q
      = (orHalt ((e.withFilled y).findSymbolFrom t.known q.name (m + 1)
          (t.known.nsymtab - (m + 1))) >>= fun sym => .ok (.again (y.state e sym))) := by
    show ((x.state e (some m)).visit q m >>= _) = _
    rw [hvisit]
    show (orHalt ((e.withFilled y).findSymbol q.name (some m)) >>= _) = _
    rw [findSymbol_next h hm]
    cases (e.withFilled y).findSymbolFrom t.known q.name (m + 1) (t.known.nsymtab - (m + 1)) <;> rfl
  cases hfrom : (e.withFilled y).findSymbolFrom t.known q.name (m + 1)
      (t.known.nsymtab - (m + 1)) with
  | error s =>
      have hstop : rest e q t.known y (m + 1) = fun _ => some (.error (.stop s)) := by
        funext budget
        rw [rest, hfrom]
      have hleave : Rewrite.body q (x.state e (some m)) = .leave (.error (.stop s)) := by
        rw [Rewrite.body, hpass, hfrom]
        rfl
      rw [hstop]
      constructor
      · intro hrun
        rw [hrun.unique (returns_leave hleave)]
        exact Returns.pure _
      · intro hrun
        rw [hrun.unique (Returns.pure _)]
        exact returns_leave hleave
  | ok sym =>
      have hloop : rest e q t.known y (m + 1)
          = fun budget => run (Rewrite.body q) budget (y.state e sym) := by
        funext budget
        rw [rest, hfrom]
      have hagain : Rewrite.body q (x.state e (some m)) = .again (y.state e sym) := by
        rw [Rewrite.body, hpass, hfrom]
        rfl
      rw [hloop]
      exact ⟨returns_rest hagain, returns_again hagain⟩

/-- What a pass does with a symbol. -/
theorem visit_eq (h : Prepared b t e) (hagrees : Agrees b t x.data j) (hj : j < t.nsymtab)
    (sym : Option Nat) : (x.state e sym).visit q j
      = if Defines b t j then
          (e.withFilled x).strefOff t.known j >>= fun off =>
            orHalt ((x.state e sym).fillOut q t.known off)
        else .ok (x.state e sym) := by
  have hcache : (x.state e sym).file.cache = some t.known := h.cache
  have hobject := isObject_eq (h.withFilled x) hagrees hj (c := t.known) rfl
  rw [Rewrite.visit, hcache]
  show (orHalt ((e.withFilled x).isObject t.known j) >>= _) = _
  rw [orHalt_bind hobject]
  by_cases hdefines : Defines b t j
  · rw [if_pos hdefines, decide_eq_true hdefines]
    rfl
  · rw [if_neg hdefines, decide_eq_false hdefines]
    rfl

/-- A symbol that ends the program. -/
theorem rest_halt {halt : Halt} (h : Prepared b t e) (hagrees : Agrees b t x.data m)
    (hm : m < t.known.nsymtab) (hnamed : Named b t q.name m)
    (hvisit : (x.state e (some m)).visit q m = .error halt) :
    Returns (rest e q t.known x m) (.error halt) := by
  rw [rest_named h hagrees hm hnamed]
  refine returns_leave ?_
  have hpass : (x.state e (some m)).pass q = .error halt := by
    show ((x.state e (some m)).visit q m >>= _) = _
    rw [hvisit]
    rfl
  rw [Rewrite.body, hpass]

/-- The end of the table. -/
theorem rest_end (h : t.known.nsymtab ≤ m) :
    Returns (rest e q t.known x m) (.ok (x.count, x.loadaddr, e.withFilled x)) := by
  have hloop : rest e q t.known x m
      = fun budget => run (Rewrite.body q) budget (x.state e none) := by
    funext budget
    rw [rest, Nat.sub_eq_zero_of_le h]
    rfl
  rw [hloop]
  exact returns_leave rfl

/-- A symbol that is not accepted. -/
theorem visit_refused (h : Prepared b t e) (hagrees : Agrees b t x.data j) (hj : j < t.nsymtab)
    (hdefines : Defines b t j) (haccepted : ¬ Accepted b t j) (sym : Option Nat) :
    ∃ halt, (x.state e sym).visit q j = .error halt ∧ halt.about = some j := by
  rw [visit_eq h hagrees hj, if_pos hdefines]
  obtain ⟨hyes, -⟩ | ⟨-, halt, hoff, habout⟩ :=
    strefOff_cases (h.withFilled x) hagrees hj (c := t.known) hdefines rfl
  · exact absurd hyes haccepted
  · rw [hoff]
    exact ⟨halt, rfl, habout⟩

/-- A symbol that is accepted, rightly or not. -/
theorem visit_accepted (h : Prepared b t e) (hagrees : Agrees b t x.data j) (hj : j < t.nsymtab)
    (hdefines : Defines b t j) (haccepted : Accepted b t j) (sym : Option Nat) :
    (x.state e sym).visit q j
      = orHalt ((x.state e sym).fillOut q t.known (place b t j % 2 ^ 64)) := by
  rw [visit_eq h hagrees hj, if_pos hdefines]
  obtain ⟨-, hoff⟩ | ⟨hno, -⟩ :=
    strefOff_cases (h.withFilled x) hagrees hj (c := t.known) hdefines rfl
  · rw [hoff]
    rfl
  · exact absurd haccepted hno

/-- A symbol whose record is filled in. -/
theorem visit_good (h : Prepared b t e) (hagrees : Agrees b t x.data j) (hj : j < t.nsymtab)
    (hdefines : Defines b t j) (haccepted : Accepted b t j) (hin : Inside b t j)
    (hcount : x.count + 1 < 2 ^ 32) (sym : Option Nat) :
    (x.state e sym).visit q j = .ok ((x.add q t.known.nsymtab (place b t j)).state e sym) := by
  obtain ⟨hplace, hsection⟩ := place_inside h hdefines hin
  have hfits := b.fits
  have hsmall := b.small
  have hsize := h.size
  rw [visit_accepted h hagrees hj hdefines haccepted, Nat.mod_eq_of_lt (by omega),
    fillOut_eq (by omega) hcount]
  rfl

end Steps

/-! ## Runs -/

section Runs

variable {t : SymtabCache} {q : Request} {loadaddr m j : Nat}
  {r : Except Halt (Nat × Nat × ElfInfo)}

/-- The records of the symbols before `m`, in the file. -/
theorem Due.mono {name : CString} (h : Due b t name m) (hj : j ≤ m) : Due b t name j :=
  fun i hi => h i (Nat.lt_of_lt_of_le hi hj)

variable (h : Prepared b t e) (hkept : Kept b t q loadaddr)

include h hkept

/-- **ONE INDEX**: a symbol that is judged as it should be. -/
theorem rest_succ (hm : m < t.known.nsymtab) (hdue : Due b t q.name (m + 1))
    (hjudged : Object b t q.name m → Accepted b t m) :
    Returns (rest e q t.known (filled b t q loadaddr m) m) r
      ↔ Returns (rest e q t.known (filled b t q loadaddr (m + 1)) (m + 1)) r := by
  have hm' : m < t.nsymtab := Nat.lt_of_lt_of_le hm (Nat.mod_le _ _)
  have hagrees : Agrees b t (filled b t q loadaddr m).data m :=
    hkept m hm' (hdue.mono (Nat.le_succ m))
  have hcount : (filled b t q loadaddr m).count + 1 < 2 ^ 32 := by
    have hle := @count_filled b t q loadaddr m
    have hlt : t.known.nsymtab < 2 ^ 32 := Nat.mod_lt _ (by decide)
    omega
  by_cases hnamed : Named b t q.name m
  · by_cases hdefines : Defines b t m
    · have hobject : Object b t q.name m := ⟨hm', hnamed, hdefines⟩
      have hin := hdue m (Nat.lt_succ_self m) hobject
      rw [filled, if_pos ⟨hobject, hin⟩]
      exact rest_again h hagrees hm hnamed
        (visit_good h hagrees hm' hdefines (hjudged hobject) hin hcount _)
    · have hvisit : ((filled b t q loadaddr m).state e (some m)).visit q m
          = .ok ((filled b t q loadaddr m).state e (some m)) := by
        rw [visit_eq h hagrees hm', if_neg hdefines]
      rw [filled, if_neg fun hgood => hdefines hgood.1.2.2]
      exact rest_again h hagrees hm hnamed hvisit
  · rw [rest_unnamed h hagrees hm hnamed, filled, if_neg fun hgood => hnamed hgood.1.2.1]

/-- **THE FIRST SYMBOLS**: when they are judged as they should be, a run goes on
    from the records of all of them. -/
theorem reaches (hm : m ≤ t.known.nsymtab) (hdue : Due b t q.name m)
    (hjudged : ∀ j, j < m → Object b t q.name j → Accepted b t j) :
    Returns (rest e q t.known (filled b t q loadaddr 0) 0) r
      ↔ Returns (rest e q t.known (filled b t q loadaddr m) m) r := by
  induction m with
  | zero => exact Iff.rfl
  | succ m ih =>
      have hfirst := ih (Nat.le_of_succ_le hm) (hdue.mono (Nat.le_succ m))
        fun j hj => hjudged j (Nat.lt_succ_of_lt hj)
      exact hfirst.trans (rest_succ h hkept hm hdue (hjudged m (Nat.lt_succ_self m)))

end Runs

/-! ## Exits -/

/-- A search goes on from where it starts. -/
theorem findSymbolFrom_bounds {c : SymtabCache} {name : CString} {i n k : Nat}
    (h : e.findSymbolFrom c name i n = .ok (some k)) : i ≤ k ∧ k < i + n := by
  induction n generalizing i with
  | zero => cases h
  | succ n ih =>
      rw [ElfInfo.findSymbolFrom] at h
      cases hname : e.get (stName c.symtab i) with
      | error s =>
          rw [hname] at h
          cases h
      | ok v =>
          rw [hname] at h
          cases hsame : e.sameString (c.symstrtab + v) name.bytes with
          | error s =>
              have h : (e.sameString (c.symstrtab + v) name.bytes >>= _) = _ := h
              rw [hsame] at h
              cases h
          | ok same =>
              have h : (e.sameString (c.symstrtab + v) name.bytes >>= _) = _ := h
              rw [hsame] at h
              cases same with
              | true =>
                  obtain rfl := Option.some.inj (Except.ok.inj h)
                  exact ⟨Nat.le_refl i, by omega⟩
              | false =>
                  obtain ⟨hle, hlt⟩ := ih h
                  exact ⟨by omega, by omega⟩

/-- An exit, if there is one, is because of `j`. -/
def Blames {α : Type} (j : Nat) (x : Except Halt α) : Prop :=
  ∀ halt, x = .error halt → halt.about = none ∨ halt.about = some j

section Blames

variable {α β : Type} {j : Nat}

theorem Blames.ok (a : α) : Blames j (.ok a) := by
  intro halt hhalt
  cases hhalt

theorem Blames.orHalt (x : Except Stop α) : Blames j (orHalt x) := by
  intro halt hhalt
  cases x with
  | error s =>
      obtain rfl := Except.error.inj hhalt
      exact Or.inl rfl
  | ok a => cases hhalt

/-- One step blames what it is about, and so does the next. -/
theorem Blames.bind {x : Except Halt α} {f : α → Except Halt β} (hx : Blames j x)
    (hf : ∀ a, Blames j (f a)) : Blames j (x >>= f) := by
  cases x with
  | error halt => exact fun halt' hhalt => hx halt' (congrArg _ (Except.error.inj hhalt))
  | ok a => exact hf a

end Blames

section Exits

variable {c : SymtabCache} {q : Request} {s s' : Rewrite} {j : Nat}

/-- A reference outside the file is blamed on its symbol. -/
theorem strefOff_blames (e : ElfInfo) (c : SymtabCache) (j : Nat) : Blames j (e.strefOff c j) := by
  refine Blames.bind (Blames.orHalt _) fun size => Blames.bind (Blames.orHalt _) fun value => ?_
  split_ifs
  · intro halt hhalt
    obtain rfl := Except.error.inj hhalt
    exact Or.inr rfl
  refine Blames.bind (Blames.orHalt _) fun k => Blames.bind (Blames.orHalt _) fun bad => ?_
  split_ifs
  · intro halt hhalt
    obtain rfl := Except.error.inj hhalt
    exact Or.inr rfl
  · exact Blames.bind (Blames.orHalt _) fun _ => Blames.bind (Blames.orHalt _) fun _ => Blames.ok _

/-- A pass exits because of its symbol. -/
theorem pass_blames (hsym : s.sym = some j) : Blames j (s.pass q) := by
  have hvisit : Blames j (s.visit q j) := by
    refine Blames.bind (Blames.orHalt _) fun yes => ?_
    split_ifs
    · exact Blames.bind (strefOff_blames _ _ j) fun _ => Blames.orHalt _
    · exact Blames.ok _
  rw [Rewrite.pass, hsym]
  exact Blames.bind hvisit fun _ => Blames.bind (Blames.orHalt _) fun _ => Blames.ok _

theorem orHalt_ok {α : Type} {x : Except Stop α} {a : α} (h : orHalt x = .ok a) : x = .ok a := by
  cases x with
  | error s => cases h
  | ok a' => exact congrArg _ (Except.ok.inj h)

/-- The table is not touched. -/
theorem visit_cache (h : s.visit q j = .ok s') : s'.file.cache = s.file.cache := by
  obtain ⟨yes, -, h⟩ := ok_of_bind h
  cases yes with
  | false => rw [← Except.ok.inj h]
  | true =>
      obtain ⟨off, -, h⟩ := ok_of_bind h
      obtain ⟨addr, -, h⟩ := ok_of_bind (orHalt_ok h)
      obtain ⟨stref, -, h⟩ := ok_of_bind h
      rw [← Except.ok.inj h]
      show ElfInfo.cache (if _ then _ else _) = _
      split_ifs <;> rfl

/-- A pass goes on to a later symbol. -/
theorem pass_again (hcache : s.file.cache = some c) (h : s.pass q = .ok (.again s')) :
    s'.file.cache = some c ∧ ∃ i, s.sym = some i ∧ ∀ k, s'.sym = some k →
      ElfInfo.startAfter (some i) ≤ k ∧ k < c.nsymtab := by
  cases hsym : s.sym with
  | none =>
      rw [Rewrite.pass, hsym] at h
      cases h
  | some i =>
      rw [Rewrite.pass, hsym] at h
      obtain ⟨s₁, hvisit, h⟩ := ok_of_bind h
      obtain ⟨⟨sym, file⟩, hfind, h⟩ := ok_of_bind h
      have hcache₁ := (visit_cache hvisit).trans hcache
      have hfind := orHalt_ok hfind
      rw [findSymbol_table (symtab_cached hcache₁) hcache₁] at hfind
      obtain ⟨sym', hfrom, hfind⟩ := ok_of_bind hfind
      obtain ⟨rfl, rfl⟩ := Prod.mk.inj (Except.ok.inj hfind)
      cases h
      refine ⟨hcache₁, i, rfl, fun k hk => ?_⟩
      have hk : sym' = some k := hk
      obtain ⟨hle, hlt⟩ := findSymbolFrom_bounds (hk ▸ hfrom)
      exact ⟨hle, by omega⟩

/-- **AN EXIT** is because of the symbol that was found, or of a later one. -/
theorem about_later {halt : Halt} {k budget : Nat} (hcache : s.file.cache = some c)
    (hcount : c.nsymtab < 2 ^ 32) (hsym : ∀ i, s.sym = some i → i < c.nsymtab)
    (hrun : run (Rewrite.body q) budget s = some (.error halt)) (hk : halt.about = some k) :
    ∃ i, s.sym = some i ∧ i ≤ k := by
  induction budget generalizing s with
  | zero => cases hrun
  | succ budget ih =>
      rw [run, Rewrite.body] at hrun
      cases hpass : s.pass q with
      | error halt' =>
          rw [hpass] at hrun
          obtain rfl := Except.error.inj (Option.some.inj hrun)
          cases hfound : s.sym with
          | none =>
              rw [Rewrite.pass, hfound] at hpass
              cases hpass
          | some i =>
              refine ⟨i, rfl, ?_⟩
              rcases pass_blames hfound halt' hpass with hnone | hsome
              · exact absurd (hnone.symm.trans hk) (by simp)
              · exact Nat.le_of_eq (Option.some.inj (hsome.symm.trans hk))
      | ok turn =>
          rw [hpass] at hrun
          cases turn with
          | leave r => cases hrun
          | again s' =>
              obtain ⟨hcache', i, hi, hnext⟩ := pass_again hcache hpass
              obtain ⟨i', hi', hle⟩ := ih hcache' (fun i hi => (hnext i hi).2) hrun
              have hstart : ElfInfo.startAfter (some i) = i + 1 := by
                have hlt := hsym i hi
                exact Nat.mod_eq_of_lt (by omega)
              have hlater := (hnext i' hi').1
              exact ⟨i, hi, by omega⟩

end Exits

end ElfFile
