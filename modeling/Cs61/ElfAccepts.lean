import Cs61.ElfTool

/-! # Files that are accepted, and what is found in them

    `validate` accepts every file that is valid (`validate_of_valid`), and
    `find_section` gives the first section with the name. -/

namespace ElfFile

open ByteFiles Checks

variable {b : Buffer} {e : ElfInfo} {name : CString} {i n p : Nat}

/-! ## `validate` -/

namespace ElfInfo

section OneSection

variable (hv : Valid e.toBuffer) (hsht : e.sht = e.shoff) (hi : i < e.shnum)

include hv hsht hi

/-- The names of a valid symbol table pass. -/
theorem checkSymbols_none (p : Nat) : e.checkSymbols i p = .ok none := by
  obtain ⟨-, htype, hoffset, hsize, hlink⟩ := hv.header.fields_inside hi
  have hsection := hv.sections i hi
  rw [checkSymbols, hsht]
  obtain ⟨yes, htest, hyes⟩ :=
    Buffer.test_decides (b := e.toBuffer) (t := (· = shtSymtab)) htype decide_eq_true_iff
  rw [htest]
  cases yes with
  | false => rfl
  | true =>
      have hsym := hyes.mp rfl
      obtain ⟨hlink_lt, -⟩ := hsection.link hsym
      obtain ⟨-, -, -, hsize', -⟩ := hv.header.fields_inside hlink_lt
      show (e.get _ >>= _) = _
      rw [Buffer.get_bind hoffset, Buffer.get_bind hsize, Buffer.get_bind hlink,
        Buffer.get_bind hsize']
      refine firstComplaint_none fun j hj => rejectIf_false ?_
      rw [Nat.zero_add]
      obtain ⟨hin, -⟩ := hv.symbol_terminated hi hsym hj
      have hdecides := Buffer.test_decides (b := e.toBuffer)
        (x := stName (e.val (shOffset e.shoff i)) j)
        (t := (· ≥ e.val (shSize e.shoff (e.val (shLink e.shoff i)))))
        (Nat.le_trans (Nat.add_le_add_left (show 4 ≤ sizeofSymbol by decide) _) hin)
        decide_eq_true_iff
      exact hdecides.eq_false (Nat.not_le.mpr (hsection.symbols hsym j hj))

/-- The contents of a valid section pass. -/
theorem checkContents_none :
    e.checkContents i (e.shstrtab + e.val (shName e.shoff i)) = .ok none := by
  have hok := hv.header
  have hsection := hv.sections i hi
  obtain ⟨q, hpq, hq, -⟩ := hv.section_terminated hi
  have hrange := (badRange_decides hok.toTablesOk hsht hi).eq_false fun hbad => by
    have hin := hsection.range hbad.1.1 hbad.1.2
    omega
  have hlink := (badLink_decides hok.toTablesOk hsht hi).eq_false fun hbad => by
    obtain ⟨hlt, htype⟩ := hsection.link hbad.1
    exact hbad.2.elim (Nat.not_le.mpr hlt) fun hne => hne htype
  have hstrtab := badStrtab_decides hok.toTablesOk hsht hi fun hstr => by
    have hin := hsection.range (hstr ▸ by decide) (hstr ▸ by decide)
    omega
  have hstrtab := hstrtab.eq_false fun hbad => by
    obtain ⟨hne, hfirst, hlast⟩ := hsection.strtab hbad.1
    exact not_or.mpr ⟨hne, not_or.mpr ⟨not_not.mpr hfirst, not_not.mpr hlast⟩⟩ hbad.2
  rw [checkContents, Buffer.char_ok (Nat.lt_of_le_of_lt hpq hq)]
  show rejectIf _ _ _ = _
  rw [rejectIf_false hrange, rejectIf_false hlink, checkSymbols_none hv hsht hi]
  exact rejectIf_false hstrtab

/-- A valid section passes. -/
theorem checkSection_none : e.checkSection e.shstrtab e.shstrtabSize i = .ok none := by
  have hok := hv.header
  obtain ⟨hname, -⟩ := hok.fields_inside hi
  have hnull := (notNull_decides hok.toTablesOk hsht hi).eq_false fun hbad => by
    obtain ⟨rfl, hne⟩ := hbad
    exact hne hv.null
  have hsize := Buffer.test_decides (b := e.toBuffer) (x := shName e.shoff i)
    (t := (· ≥ e.shstrtabSize)) hname decide_eq_true_iff
  have hsize := hsize.eq_false (Nat.not_le.mpr (hv.sections i hi).name)
  rw [checkSection, rejectIf_false hnull, hsht, rejectIf_false hsize, Buffer.get_bind hname]
  exact checkContents_none hv hsht hi

end OneSection

/-- All sections of a valid file pass. -/
theorem checkSections_none (hv : Valid e.toBuffer) (hsht : e.sht = e.shoff) :
    e.checkSections = .ok none := by
  have hok := hv.header
  obtain ⟨-, -, hoffset, hsize, -⟩ := hok.fields_inside hok.ndx_lt
  rw [checkSections, hsht, Buffer.get_bind (hok.inside eShstrndx (by decide))]
  refine (Buffer.get_bind hoffset _).trans ((Buffer.get_bind hsize _).trans ?_)
  refine (Buffer.get_bind (hok.inside eShnum (by decide)) _).trans ?_
  refine firstComplaint_none fun k hk => ?_
  rw [Nat.zero_add]
  exact checkSection_none hv hsht hk

end ElfInfo

/-- Every valid file is accepted. -/
theorem validate_of_valid (hv : Valid b) : b.load.validate = .ok (.accepted b.accepted) := by
  have hnames := (ElfInfo.badShstrtab_decides (e := b.located) hv.header rfl
    (Or.inr hv.names.inside)).eq_false (not_not.mpr hv.names)
  rw [Buffer.validate_tables (Buffer.checkHeader_none hv.header) hv.header.header,
    Buffer.checkTables_eq hv.header, rejectIf_false hnames,
    ElfInfo.checkSections_none (e := b.located) hv rfl]
  rfl

/-! ## `find_section` -/

namespace Buffer

/-- The first section from `i` on with the name, of `n`. -/
def sectionNamedFrom (b : Buffer) (name : CString) : Nat → Nat → Nat
  | _, 0 => 0
  | i, n + 1 =>
      if stringAt b.data (b.shstrtab + b.val (shName b.shoff i)) name.bytes then i
      else sectionNamedFrom b name (i + 1) n

/-- What `find_section` gives. -/
def sectionNamed (b : Buffer) (name : CString) : Nat := b.sectionNamedFrom name 0 b.shnum

end Buffer

namespace ElfInfo

/-- A string that ends in the file is compared with `name`. -/
theorem sameString_eq {s : List UInt8} (hs : ∀ c ∈ s, c ≠ 0) (h : Terminated e.toBuffer p) :
    e.sameString p s = .ok (stringAt e.data p s) :=
  sameString_agrees (fun _ _ => rfl) hs h rfl

/-- The loop of `find_section`, as a function of the file. -/
theorem findSectionFrom_eq (h : Ready e) (n i : Nat) (hi : i + n = e.shnum) :
    e.findSectionFrom e.shstrtab name i n = .ok (e.sectionNamedFrom name i n) := by
  induction n generalizing i with
  | zero => rfl
  | succ n ih =>
      have hlt : i < e.shnum := by omega
      obtain ⟨hname, -⟩ := h.valid.header.fields_inside hlt
      rw [findSectionFrom, h.sht, Buffer.get_bind hname,
        sameString_eq name.nulFree (h.valid.section_terminated hlt), Buffer.sectionNamedFrom]
      show (if _ then _ else _) = _
      split_ifs
      · rfl
      · exact ih (i + 1) (by omega)

/-- `find_section`, as a function of the file. -/
theorem findSection_eq (h : Ready e) (name : CString) :
    e.findSection name = .ok (e.sectionNamed name) := by
  rw [findSection, if_pos h.ok, namesAt_eq h]
  show (e.get _ >>= _) = _
  rw [Buffer.get_bind (h.valid.header.inside eShnum (by decide))]
  exact findSectionFrom_eq h e.shnum 0 (Nat.zero_add _)

end ElfInfo

/-! ## The symbol table -/

namespace Buffer

/-- The section of the symbol table. -/
def symtabNdx (b : Buffer) : Nat := b.sectionNamed ElfInfo.symtabName

/-- There is one. -/
structure HasSymtab (b : Buffer) : Prop where
  ndx : b.symtabNdx ≠ 0
  type : b.val (shType b.shoff b.symtabNdx) = shtSymtab

/-- The symbol table as it is cached. -/
def table (b : Buffer) : SymtabCache := (b.tableOf b.symtabNdx).known

/-- A search that has something to go through ends at a section. -/
theorem sectionNamedFrom_lt (hi : i < n) (hn : 0 < n) (m : Nat) (hm : i + m = n) :
    b.sectionNamedFrom name i m < n := by
  induction m generalizing i with
  | zero => exact hn
  | succ m ih =>
      rw [sectionNamedFrom]
      split_ifs
      · exact hi
      · cases m with
        | zero => exact hn
        | succ m => exact ih (by omega) (by omega)

/-- The section of the symbol table is one. -/
theorem symtabNdx_lt (hv : Valid b) : b.symtabNdx < b.shnum := by
  have hsections := Nat.pos_of_ne_zero hv.header.sections
  exact sectionNamedFrom_lt hsections hsections b.shnum (Nat.zero_add _)

end Buffer

/-- An accepted file in which the symbol table is, or is not yet, cached. -/
structure Opened (e : ElfInfo) : Prop where
  valid : Valid e.toBuffer
  ok : e.ok = true
  pht : e.pht = e.phoff
  sht : e.sht = e.shoff

namespace Opened

/-- An accepted file without a cache can be looked up in. -/
theorem ready (h : Opened e) (hcache : e.cache = none) : Ready e :=
  ⟨h.valid, h.ok, h.sht, fun c hc => absurd (hcache.symm.trans hc) (Option.some_ne_none c).symm⟩

/-- The symbol table is cached. -/
theorem symtab_eq (h : Opened e) (hcache : e.cache = none) (hsym : e.HasSymtab) :
    e.symtab = .ok { e with cache := some e.table } := by
  have hlt := Buffer.symtabNdx_lt h.valid
  have hok := h.valid.header
  obtain ⟨-, htype, hoffset, hsize, hlink⟩ := hok.fields_inside hlt
  obtain ⟨hlink_lt, -⟩ := (h.valid.sections _ hlt).link hsym.type
  obtain ⟨-, -, hoffset', -⟩ := hok.fields_inside hlink_lt
  have htest : Decides (both (.ok (e.symtabNdx ≠ 0)) (e.test (shType e.sht e.symtabNdx) (· = shtSymtab)))
      (e.symtabNdx ≠ 0 ∧ e.val (shType e.shoff e.symtabNdx) = shtSymtab) := by
    rw [h.sht]
    exact Decides.both (Decides.ok decide_eq_true_iff) fun _ =>
      Buffer.test_decides htype decide_eq_true_iff
  obtain ⟨yes, hyes, hiff⟩ := htest
  obtain rfl := hiff.mpr ⟨hsym.ndx, hsym.type⟩
  have hfind : e.findSection ElfInfo.symtabName = .ok e.symtabNdx :=
    ElfInfo.findSection_eq (h.ready hcache) _
  rw [ElfInfo.symtab, hcache]
  show (e.findSection ElfInfo.symtabName >>= _) = _
  rw [hfind]
  show (both (.ok (e.symtabNdx ≠ 0)) (e.test (shType e.sht e.symtabNdx) (· = shtSymtab)) >>= _) = _
  rw [hyes, h.sht]
  show (e.get _ >>= _) = _
  rw [Buffer.get_bind hoffset, Buffer.get_bind hsize, Buffer.get_bind hlink, Buffer.get_bind hoffset']
  rfl

end Opened

/-- The string table of the symbols is the next section. -/
structure Buffer.Linked (b : Buffer) : Prop extends HasSymtab b where
  link : b.val (shLink b.shoff b.symtabNdx) = b.symtabNdx + 1

namespace Opened

/-- Which symbol table is worked on. -/
theorem symtabSection_iff (h : Opened e) (hcache : e.cache = none) :
    e.symtabSection = .ok i ↔ e.Linked ∧ i = e.symtabNdx := by
  have hlt := Buffer.symtabNdx_lt h.valid
  have hok := h.valid.header
  obtain ⟨-, htype, -, -, hlink⟩ := hok.fields_inside hlt
  -- the first test: a symbol table has been found
  have hnone : Decides (either (.ok (e.symtabNdx = 0))
      (e.test (shType e.sht e.symtabNdx) (· ≠ shtSymtab)))
      (e.symtabNdx = 0 ∨ e.val (shType e.shoff e.symtabNdx) ≠ shtSymtab) := by
    rw [h.sht]
    exact Decides.either (Decides.ok decide_eq_true_iff) fun _ =>
      Buffer.test_decides htype decide_eq_true_iff
  -- the others are about its link; the section it names is a string table by `validate`
  have hlinks : ∀ hsym : e.val (shType e.shoff e.symtabNdx) = shtSymtab,
      Decides (either (do e.test eShnum ((← e.get (shLink e.sht e.symtabNdx)) ≥ ·)) (either
        (e.test (shLink e.sht e.symtabNdx) (· ≠ e.symtabNdx + 1)) (do
          e.test (shType e.sht (← e.get (shLink e.sht e.symtabNdx))) (· ≠ shtStrtab))))
        (e.val (shLink e.shoff e.symtabNdx) ≠ e.symtabNdx + 1) := by
    intro hsym
    obtain ⟨hlink_lt, hstr⟩ := (h.valid.sections _ hlt).link hsym
    obtain ⟨-, htype', -⟩ := hok.fields_inside hlink_lt
    rw [h.sht, Buffer.get_bind hlink, Buffer.get_bind hlink]
    refine (Decides.either (Buffer.test_decides (hok.inside eShnum (by decide)) decide_eq_true_iff)
      fun _ => Decides.either (Buffer.test_decides hlink decide_eq_true_iff)
        fun _ => Buffer.test_decides htype' decide_eq_true_iff).congr ?_
    refine ⟨?_, fun hne => Or.inr (Or.inl hne)⟩
    rintro (hge | hne | hne)
    · exact absurd hlink_lt (Nat.not_lt.mpr hge)
    · exact hne
    · exact absurd hstr hne
  have hfind : e.findSection ElfInfo.symtabName = .ok e.symtabNdx :=
    ElfInfo.findSection_eq (h.ready hcache) _
  rw [ElfInfo.symtabSection, hfind]
  dsimp only [bind, Except.bind]
  obtain ⟨no, hno, hno_iff⟩ := hnone
  rw [hno]
  cases no with
  | true =>
      refine iff_of_false (fun h => by cases h) fun hlinked => ?_
      exact (hno_iff.mp rfl).elim hlinked.1.ndx fun hne => hne hlinked.1.type
  | false =>
      obtain ⟨hndx, htype⟩ := not_or.mp (mt hno_iff.mpr Bool.false_ne_true)
      obtain ⟨odd, hodd, hodd_iff⟩ := hlinks (not_not.mp htype)
      dsimp only [bind, Except.bind] at hodd ⊢
      rw [hodd]
      cases odd with
      | true =>
          refine iff_of_false (fun h => by cases h) fun hlinked => ?_
          exact hodd_iff.mp rfl hlinked.1.link
      | false =>
          have hlink := not_not.mp (mt hodd_iff.mpr Bool.false_ne_true)
          refine ⟨fun h => ?_, ?_⟩
          · exact ⟨⟨⟨hndx, not_not.mp htype⟩, hlink⟩, (Except.ok.inj h).symm⟩
          · rintro ⟨-, rfl⟩
            rfl

end Opened

end ElfFile
