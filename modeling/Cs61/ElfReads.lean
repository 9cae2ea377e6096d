import Cs61.ElfFile
import Mathlib.Tactic.Ring

/-! # What `validate` reads, and what it promises

    The checks are in an order in which each makes the reads of the later ones
    safe, with one exception: the two ends of the section name table are read
    before anything is known of where that table is.  So `validate` keeps inside
    the file exactly when it does so there (`validate_defined_iff`).  What it has
    checked when it accepts a file is `Valid`; then the functions that look
    things up need no checks of their own (`lookups_inside`). -/

namespace ElfFile

open ByteFiles Checks

/-! ## Reads that are inside -/

/-- There is a terminator in the file at or behind `p`. -/
def Terminated (b : Buffer) (p : Nat) : Prop := ∃ q, p ≤ q ∧ q < b.size ∧ b.data q = 0

namespace Buffer

/-- `e_phoff` of the file. -/
def phoff (b : Buffer) : Nat := b.val ePhoff
/-- `e_phnum` of the file. -/
def phnum (b : Buffer) : Nat := b.val ePhnum
/-- `e_shoff` of the file. -/
def shoff (b : Buffer) : Nat := b.val eShoff
/-- `e_shnum` of the file. -/
def shnum (b : Buffer) : Nat := b.val eShnum
/-- `e_shstrndx` of the file. -/
def shstrndx (b : Buffer) : Nat := b.val eShstrndx

/-- Where the section name table is. -/
def shstrtab (b : Buffer) : Nat := b.val (shOffset b.shoff b.shstrndx)
/-- The size of the section that holds the names of sections. -/
def shstrtabSize (b : Buffer) : Nat := b.val (shSize b.shoff b.shstrndx)

variable {b : Buffer} {x : Field} {p n : Nat}

/-- A read inside the file. -/
theorem get_ok (h : x.off + x.bytes ≤ b.size) : b.get x = .ok (b.val x) := if_pos h

theorem get_bind {α : Type} (h : x.off + x.bytes ≤ b.size) (f : Nat → Except Stop α) :
    (b.get x >>= f) = f (b.val x) := by
  rw [get_ok h]
  rfl

theorem test_decides {t : Nat → Bool} {P : Prop} (h : x.off + x.bytes ≤ b.size)
    (hP : t (b.val x) = true ↔ P) : Decides (b.test x t) P := by
  rw [test, get_ok h]
  exact Decides.ok hP

/-- A byte inside the file. -/
theorem char_ok (h : p < b.size) : b.char p = .ok (b.data p) := if_pos h

theorem char_decides (h : p < b.size) : Decides ((b.char p).map (· ≠ 0)) (b.data p ≠ 0) := by
  rw [char_ok h]
  exact Decides.ok decide_eq_true_iff

/-- A string that ends inside the file. -/
theorem string_defined (h : Terminated b p) : Defined (b.string p) := by
  obtain ⟨q, hpq, hq, hzero⟩ := h
  have hread : ∀ n p, p ≤ q → q < p + n → Defined (b.stringIn n p) := by
    intro n
    induction n with
    | zero =>
        intro p hpq hqn
        exact absurd hqn (by omega)
    | succ n ih =>
        intro p hpq hqn
        rw [stringIn]
        by_cases hp : b.data p = 0
        · exact ⟨[], if_pos hp⟩
        · have hne : p ≠ q := fun heq => hp (heq ▸ hzero)
          obtain ⟨s, hs⟩ := ih (p + 1) (by omega) (by omega)
          rw [if_neg hp, hs]
          exact ⟨_, rfl⟩
  exact hread _ p hpq (by omega)

/-- A string that does not is read to the end of the file and beyond. -/
theorem string_outside (h : ¬ Terminated b p) : ∃ q, b.string p = .error (.outside q 1) := by
  have hread : ∀ n p, p + n ≤ max p b.size → ¬ Terminated b p →
      ∃ q, b.stringIn n p = .error (.outside q 1) := by
    intro n
    induction n with
    | zero => exact fun p _ _ => ⟨p, rfl⟩
    | succ n ih =>
        intro p hn hp
        have hne : b.data p ≠ 0 := fun hzero => hp ⟨p, Nat.le_refl p, by omega, hzero⟩
        have hnext : ¬ Terminated b (p + 1) := by
          rintro ⟨q, hpq, hq⟩
          exact hp ⟨q, by omega, hq⟩
        obtain ⟨q, hq⟩ := ih (p + 1) (by omega) hnext
        rw [stringIn, if_neg hne, hq]
        exact ⟨q, rfl⟩
  exact hread _ p (by omega) h

end Buffer

/-! ## The header -/

/-- The tables that the header names are in the file. -/
structure TablesOk (b : Buffer) : Prop where
  header : sizeofHeader ≤ b.size
  phoff : b.phoff < b.size
  pht : b.phnum ≤ (b.size - b.phoff) / sizeofProgram
  shoff : b.shoff < b.size
  sht : b.shnum ≤ (b.size - b.shoff) / sizeofSection

/-- What is known of the header when the names of the sections are looked at. -/
structure HeaderOk (b : Buffer) : Prop extends TablesOk b where
  magic : b.val eMagic = elfMagic
  phentsize : b.val ePhentsize = sizeofProgram
  shentsize : b.val eShentsize = sizeofSection
  programs : b.phnum ≠ 0
  sections : b.shnum ≠ 0
  ndx : b.shstrndx ≠ 0
  ndx_lt : b.shstrndx < b.shnum
  strtab : b.val (shType b.shoff b.shstrndx) = shtStrtab
  strtabSize : b.shstrtabSize ≠ 0

/-- The table of the section names is in the file, or its first byte is and is no
    terminator. -/
def NamesInside (b : Buffer) : Prop :=
  (b.shstrtab < b.size ∧ b.data b.shstrtab ≠ 0) ∨ b.shstrtab + b.shstrtabSize ≤ b.size

/-- The table of the section names ends with a terminator. -/
structure NamesOk (b : Buffer) : Prop where
  inside : b.shstrtab + b.shstrtabSize ≤ b.size
  first : b.data b.shstrtab = 0
  last : b.data (b.shstrtab + b.shstrtabSize - 1) = 0

/-- What is known of a section. -/
structure SectionOk (b : Buffer) (i : Nat) : Prop where
  name : b.val (shName b.shoff i) < b.shstrtabSize
  range : b.val (shType b.shoff i) ≠ shtNull → b.val (shType b.shoff i) ≠ shtNobits →
    b.val (shOffset b.shoff i) < b.size
      ∧ b.val (shSize b.shoff i) ≤ b.size - b.val (shOffset b.shoff i)
  link : b.val (shType b.shoff i) = shtSymtab → b.val (shLink b.shoff i) < b.shnum
    ∧ b.val (shType b.shoff (b.val (shLink b.shoff i))) = shtStrtab
  symbols : b.val (shType b.shoff i) = shtSymtab →
    ∀ j, j < b.val (shSize b.shoff i) / sizeofSymbol →
      b.val (stName (b.val (shOffset b.shoff i)) j)
        < b.val (shSize b.shoff (b.val (shLink b.shoff i)))
  strtab : b.val (shType b.shoff i) = shtStrtab → b.val (shSize b.shoff i) ≠ 0
    ∧ b.data (b.val (shOffset b.shoff i)) = 0
    ∧ b.data (b.val (shOffset b.shoff i) + b.val (shSize b.shoff i) - 1) = 0

/-- What `validate` has checked. -/
structure Valid (b : Buffer) : Prop where
  header : HeaderOk b
  names : NamesOk b
  null : b.val (shType b.shoff 0) = shtNull
  sections : ∀ i, i < b.shnum → SectionOk b i

/-- A field of the header. -/
def InHeader (x : Field) : Prop := x.off + x.bytes ≤ sizeofHeader

instance (x : Field) : Decidable (InHeader x) := inferInstanceAs (Decidable (_ ≤ _))

/-- Where a table that fits ends. -/
theorem table_end {offset entry count size : Nat} (hoff : offset < size)
    (hcount : count ≤ (size - offset) / entry) (hentry : 0 < entry) :
    offset + entry * count ≤ size := by
  have hall : count * entry ≤ size - offset := (Nat.le_div_iff_mul_le hentry).mp hcount
  rw [Nat.mul_comm]
  omega

/-- What lies in the entries of a table that fits. -/
theorem table_inside {offset entry count size i : Nat} (hoff : offset < size)
    (hcount : count ≤ (size - offset) / entry) (hentry : 0 < entry) (hi : i < count) :
    offset + entry * i + entry ≤ size := by
  have hall := table_end hoff hcount hentry
  have hupto : entry * (i + 1) ≤ entry * count := Nat.mul_le_mul_left entry hi
  rw [Nat.mul_succ] at hupto
  omega

namespace TablesOk

variable {b : Buffer} {x : Field} {i : Nat}

theorem inside (h : TablesOk b) (x : Field) (hx : InHeader x) : x.off + x.bytes ≤ b.size :=
  Nat.le_trans hx h.header

/-- A section header is in the file. -/
theorem section_inside (h : TablesOk b) (hi : i < b.shnum) :
    sect b.shoff i + sizeofSection ≤ b.size :=
  table_inside h.shoff h.sht (by decide) hi

/-- A program header is in the file. -/
theorem program_inside (h : TablesOk b) (hi : i < b.phnum) :
    program b.phoff i + sizeofProgram ≤ b.size :=
  table_inside h.phoff h.pht (by decide) hi

/-- The whole tables. -/
theorem sections_inside (h : TablesOk b) : sect b.shoff b.shnum ≤ b.size :=
  table_end h.shoff h.sht (by decide)

theorem programs_inside (h : TablesOk b) : program b.phoff b.phnum ≤ b.size :=
  table_end h.phoff h.pht (by decide)

/-- The fields of a section. -/
theorem fields_inside (h : TablesOk b) (hi : i < b.shnum) :
    (shName b.shoff i).off + 4 ≤ b.size ∧ (shType b.shoff i).off + 4 ≤ b.size
      ∧ (shOffset b.shoff i).off + 8 ≤ b.size ∧ (shSize b.shoff i).off + 8 ≤ b.size
      ∧ (shLink b.shoff i).off + 4 ≤ b.size := by
  have hin := h.section_inside hi
  simp only [shName, shType, shOffset, shSize, shLink, sizeofSection] at hin ⊢
  omega

end TablesOk

namespace ElfInfo

variable {e : ElfInfo} {i : Nat}

/-! ## The checks of the header -/

/-- The test whether this is such a file. -/
theorem notElf_decides (e : ElfInfo) :
    Decides e.notElf (e.size < sizeofHeader ∨ e.val eMagic ≠ elfMagic) := by
  refine Decides.either (Decides.ok decide_eq_true_iff) ?_
  intro hsize
  have hin : eMagic.off + eMagic.bytes ≤ e.size :=
    Nat.le_trans (show InHeader eMagic by decide) (Nat.le_of_not_lt hsize)
  exact Buffer.test_decides hin decide_eq_true_iff

/-- The test of the sizes of entries. -/
theorem oddSizes_decides (h : sizeofHeader ≤ e.size) :
    Decides e.oddSizes (e.val ePhentsize ≠ sizeofProgram ∨ e.val eShentsize ≠ sizeofSection) :=
  Decides.either
    (Buffer.test_decides (Nat.le_trans (show InHeader ePhentsize by decide) h) decide_eq_true_iff)
    fun _ =>
      Buffer.test_decides (Nat.le_trans (show InHeader eShentsize by decide) h) decide_eq_true_iff

/-- The test for empty tables. -/
theorem emptyTables_decides (h : sizeofHeader ≤ e.size) :
    Decides e.emptyTables (e.phnum = 0 ∨ e.shnum = 0) :=
  Decides.either
    (Buffer.test_decides (Nat.le_trans (show InHeader ePhnum by decide) h) decide_eq_true_iff)
    fun _ =>
      Buffer.test_decides (Nat.le_trans (show InHeader eShnum by decide) h) decide_eq_true_iff

/-- A table lies in the file, computed without overflow. -/
theorem badTable_iff (e : ElfInfo) (offset entry count : Nat) : e.badTable offset entry count = true
    ↔ ¬ (offset < e.size ∧ count ≤ (e.size - offset) / entry) := by
  rw [badTable, Bool.or_eq_true, decide_eq_true_iff, decide_eq_true_iff, not_and_or, Nat.not_lt,
    Nat.not_le]

/-- The test of where the tables are. -/
theorem badOffsets_decides (h : sizeofHeader ≤ e.size) : Decides e.badOffsets
    (¬ (e.phoff < e.size ∧ e.phnum ≤ (e.size - e.phoff) / sizeofProgram)
      ∨ ¬ (e.shoff < e.size ∧ e.shnum ≤ (e.size - e.shoff) / sizeofSection)) := by
  have hin : ∀ x, InHeader x → x.off + x.bytes ≤ e.size := fun x hx => Nat.le_trans hx h
  rw [badOffsets, Buffer.get_bind (hin ePhoff (by decide)), Buffer.get_bind (hin ePhnum (by decide)),
    Buffer.get_bind (hin eShoff (by decide)), Buffer.get_bind (hin eShnum (by decide))]
  exact Decides.either (Decides.ok (badTable_iff e _ _ _)) fun _ => Decides.ok (badTable_iff e _ _ _)

/-! ## The table of the section names -/

/-- The test for the section of the names. -/
theorem noShstrtab_decides (h : TablesOk e.toBuffer) (hsht : e.sht = e.shoff) : Decides e.noShstrtab
    (e.shstrndx = 0 ∨ e.shnum ≤ e.shstrndx ∨ e.val (shType e.shoff e.shstrndx) ≠ shtStrtab
      ∨ e.shstrtabSize = 0) := by
  rw [noShstrtab, hsht, Buffer.get_bind (h.inside eShstrndx (by decide))]
  refine Decides.either (Decides.ok decide_eq_true_iff) fun _ => ?_
  refine Decides.either
    (Buffer.test_decides (h.inside eShnum (by decide)) decide_eq_true_iff) fun hlt => ?_
  obtain ⟨-, htype, -, hsize, -⟩ := h.fields_inside (Nat.lt_of_not_le hlt)
  exact Decides.either (Buffer.test_decides htype decide_eq_true_iff) fun _ =>
    Buffer.test_decides hsize decide_eq_true_iff

/-- The test of a string table, which reads its first and its last byte. -/
theorem unterminated_decides {table size : Nat} (hsize : size ≠ 0) (hin : table + size ≤ e.size) :
    Decides (e.unterminated table size)
      (e.data table ≠ 0 ∨ e.data (table + size - 1) ≠ 0) :=
  Decides.either (Buffer.char_decides (by omega)) fun _ => Buffer.char_decides (by omega)

/-- The last byte of a table is not read if the first is no terminator. -/
theorem unterminated_defined_iff {table size : Nat} (hsize : size ≠ 0) :
    Defined (e.unterminated table size)
      ↔ (table < e.size ∧ e.data table ≠ 0) ∨ table + size ≤ e.size := by
  constructor
  · intro h
    obtain ⟨yes, hfirst, hrest⟩ := h.bind_inv
    have htable : table < e.size := by
      by_contra hout
      rw [Buffer.char, if_neg hout] at hfirst
      cases hfirst
    by_cases hzero : e.data table = 0
    · rw [Buffer.char_ok htable, hzero] at hfirst
      cases hfirst
      obtain ⟨last, hlast⟩ := hrest
      right
      by_contra hout
      rw [if_neg (by decide), Buffer.char, if_neg (by omega)] at hlast
      cases hlast
    · exact Or.inl ⟨htable, hzero⟩
  · rintro (⟨htable, hne⟩ | hin)
    · have hfirst : Decides (e.unterminated table size) (e.data table ≠ 0 ∨ False) :=
        Decides.either (Buffer.char_decides htable) fun h => absurd hne h
      exact hfirst.defined
    · exact (unterminated_decides hsize hin).defined

/-- The section of the names is tested as a string table. -/
theorem badShstrtab_eq (h : HeaderOk e.toBuffer) (hsht : e.sht = e.shoff) :
    e.badShstrtab = e.unterminated e.shstrtab e.shstrtabSize := by
  obtain ⟨-, -, hoffset, hsize, -⟩ := h.fields_inside h.ndx_lt
  rw [badShstrtab, hsht, Buffer.get_bind (h.inside eShstrndx (by decide))]
  exact (Buffer.get_bind hoffset _).trans (Buffer.get_bind hsize _)

/-- The test is decided if that section is inside the file. -/
theorem badShstrtab_decides (h : HeaderOk e.toBuffer) (hsht : e.sht = e.shoff)
    (hin : NamesInside e.toBuffer) : Decides e.badShstrtab (¬ NamesOk e.toBuffer) := by
  rw [badShstrtab_eq h hsht]
  rcases hin with ⟨htable, hne⟩ | hin
  · have hfirst : Decides (e.unterminated e.shstrtab e.shstrtabSize)
        (e.data e.shstrtab ≠ 0 ∨ False) :=
      Decides.either (Buffer.char_decides htable) fun h => absurd hne h
    exact hfirst.congr (iff_of_true (Or.inl hne) fun hok => hne hok.first)
  · refine (unterminated_decides h.strtabSize hin).congr ?_
    rw [← not_and_or, not_iff_not]
    exact ⟨fun hends => ⟨hin, hends.1, hends.2⟩, fun hok => ⟨hok.first, hok.last⟩⟩

/-! ## The checks of a section -/

section OneSection

variable (h : TablesOk e.toBuffer) (hsht : e.sht = e.shoff) (hi : i < e.shnum)

include h hsht hi

/-- The test of the first section. -/
theorem notNull_decides :
    Decides (e.notNull i) (i = 0 ∧ e.val (shType e.shoff i) ≠ shtNull) := by
  obtain ⟨-, htype, -⟩ := h.fields_inside hi
  rw [notNull, hsht]
  exact Decides.both (Decides.ok decide_eq_true_iff) fun _ =>
    Buffer.test_decides htype decide_eq_true_iff

/-- The test whether a section has contents. -/
theorem fileBacked_decides : Decides (e.fileBacked i)
    (e.val (shType e.shoff i) ≠ shtNull ∧ e.val (shType e.shoff i) ≠ shtNobits) := by
  obtain ⟨-, htype, -⟩ := h.fields_inside hi
  rw [fileBacked, hsht]
  exact Decides.both (Buffer.test_decides htype decide_eq_true_iff) fun _ =>
    Buffer.test_decides htype decide_eq_true_iff

/-- The test where the contents are. -/
theorem badRange_decides : Decides (e.badRange i)
    ((e.val (shType e.shoff i) ≠ shtNull ∧ e.val (shType e.shoff i) ≠ shtNobits)
      ∧ (e.size ≤ e.val (shOffset e.shoff i)
        ∨ e.size - e.val (shOffset e.shoff i) < e.val (shSize e.shoff i))) := by
  obtain ⟨-, -, hoffset, hsize, -⟩ := h.fields_inside hi
  refine Decides.both (fileBacked_decides h hsht hi) fun _ => ?_
  rw [hsht]
  refine Decides.either (Buffer.test_decides hoffset decide_eq_true_iff) fun _ => ?_
  rw [Buffer.get_bind hoffset]
  exact Buffer.test_decides hsize decide_eq_true_iff

/-- The test of a link. -/
theorem badLink_decides : Decides (e.badLink i)
    (e.val (shType e.shoff i) = shtSymtab
      ∧ (e.shnum ≤ e.val (shLink e.shoff i)
        ∨ e.val (shType e.shoff (e.val (shLink e.shoff i))) ≠ shtStrtab)) := by
  obtain ⟨-, htype, -, -, hlink⟩ := h.fields_inside hi
  rw [badLink, hsht]
  refine Decides.both (Buffer.test_decides htype decide_eq_true_iff) fun _ => ?_
  rw [Buffer.get_bind hlink]
  refine Decides.either
    (Buffer.test_decides (h.inside eShnum (by decide)) decide_eq_true_iff) fun hlt => ?_
  obtain ⟨-, htype', -⟩ := h.fields_inside (Nat.lt_of_not_le hlt)
  exact Buffer.test_decides htype' decide_eq_true_iff

/-- The test of a string table among the sections. -/
theorem badStrtab_decides (hrange : e.val (shType e.shoff i) = shtStrtab →
      e.val (shOffset e.shoff i) + e.val (shSize e.shoff i) ≤ e.size) : Decides (e.badStrtab i)
    (e.val (shType e.shoff i) = shtStrtab
      ∧ (e.val (shSize e.shoff i) = 0 ∨ e.data (e.val (shOffset e.shoff i)) ≠ 0
        ∨ e.data (e.val (shOffset e.shoff i) + e.val (shSize e.shoff i) - 1) ≠ 0)) := by
  obtain ⟨-, htype, hoffset, hsize, -⟩ := h.fields_inside hi
  rw [badStrtab, hsht]
  refine Decides.both (Buffer.test_decides htype decide_eq_true_iff) fun hstrtab => ?_
  refine Decides.either (Buffer.test_decides hsize decide_eq_true_iff) fun hne => ?_
  rw [Buffer.get_bind hoffset, Buffer.get_bind hsize]
  exact unterminated_decides hne (hrange hstrtab)

end OneSection

/-- A message with the name of a section. -/
theorem naming_defined {p : Nat} {text : String} (h : Defined (e.string p)) :
    Defined (e.naming p text) := by
  obtain ⟨s, hs⟩ := h
  exact ⟨_, congrArg _ hs⟩

/-- The symbols of a table that is in the file. -/
theorem checkSymbols_passes {name : Nat} (h : TablesOk e.toBuffer) (hsht : e.sht = e.shoff)
    (hi : i < e.shnum) (hname : Defined (e.string name))
    (hrange : e.val (shType e.shoff i) = shtSymtab →
      e.val (shOffset e.shoff i) + e.val (shSize e.shoff i) ≤ e.size)
    (hlink : e.val (shType e.shoff i) = shtSymtab → e.val (shLink e.shoff i) < e.shnum) :
    Passes (e.checkSymbols i name) (e.val (shType e.shoff i) = shtSymtab →
      ∀ j, j < e.val (shSize e.shoff i) / sizeofSymbol →
        e.val (stName (e.val (shOffset e.shoff i)) j)
          < e.val (shSize e.shoff (e.val (shLink e.shoff i)))) := by
  obtain ⟨-, htype, hoffset, hsize, hlink'⟩ := h.fields_inside hi
  rw [checkSymbols, hsht]
  obtain ⟨yes, htest, hyes⟩ :=
    Buffer.test_decides (t := (· = shtSymtab)) htype decide_eq_true_iff
  rw [htest]
  cases yes with
  | false => exact Passes.done fun hsym => absurd (hyes.mpr hsym) Bool.false_ne_true
  | true =>
      have hsym := hyes.mp rfl
      obtain ⟨-, -, -, hsize', -⟩ := h.fields_inside (hlink hsym)
      show Passes (e.get _ >>= _) _
      rw [Buffer.get_bind hoffset, Buffer.get_bind hsize, Buffer.get_bind hlink',
        Buffer.get_bind hsize']
      refine (Passes.countUp (fun j => e.val (stName (e.val (shOffset e.shoff i)) j)
        < e.val (shSize e.shoff (e.val (shLink e.shoff i)))) ?_).mono fun hall _ => hall
      intro j hj
      have hinside := hrange hsym
      have hall := Nat.div_mul_le_self (e.val (shSize e.shoff i)) sizeofSymbol
      have hupto := Nat.mul_le_mul_right sizeofSymbol (Nat.succ_le_of_lt hj)
      have hsymbol : (stName (e.val (shOffset e.shoff i)) j).off + 4 ≤ e.size := by
        simp only [stName, sizeofSymbol] at hall hupto ⊢
        omega
      exact Decides.rejectIf (Buffer.test_decides hsymbol decide_eq_true_iff)
        (fun _ => naming_defined hname) fun hlt => Passes.done (Nat.lt_of_not_le hlt)

/-- The checks behind that of the name. -/
theorem checkContents_passes (h : TablesOk e.toBuffer) (hsht : e.sht = e.shoff) (hi : i < e.shnum)
    (hnames : NamesOk e.toBuffer) (hname : e.val (shName e.shoff i) < e.shstrtabSize) :
    Passes (e.checkContents i (e.shstrtab + e.val (shName e.shoff i)))
      (SectionOk e.toBuffer i) := by
  have hend := hnames.inside
  have hchar : e.shstrtab + e.val (shName e.shoff i) < e.size := by omega
  have hstring : Defined (e.string (e.shstrtab + e.val (shName e.shoff i))) :=
    Buffer.string_defined ⟨_, by omega, by omega, hnames.last⟩
  rw [checkContents, Buffer.char_ok hchar]
  -- the range of the section, its link, its symbols, and its last byte
  refine Decides.rejectIf (badRange_decides h hsht hi) ?_ fun hrange => ?_
  · intro _
    show Defined (if _ then _ else _)
    split_ifs
    · exact naming_defined hstring
    · exact ⟨_, rfl⟩
  refine Decides.rejectIf (badLink_decides h hsht hi) (fun _ => naming_defined hstring)
    fun hlink => ?_
  have hrange' : e.val (shType e.shoff i) ≠ shtNull → e.val (shType e.shoff i) ≠ shtNobits →
      e.val (shOffset e.shoff i) < e.size
        ∧ e.val (shSize e.shoff i) ≤ e.size - e.val (shOffset e.shoff i) := by
    intro hnull hnobits
    have hin := not_or.mp (fun hbad => hrange ⟨⟨hnull, hnobits⟩, hbad⟩)
    exact ⟨Nat.lt_of_not_le hin.1, Nat.le_of_not_lt hin.2⟩
  have hlink' : e.val (shType e.shoff i) = shtSymtab → e.val (shLink e.shoff i) < e.shnum
      ∧ e.val (shType e.shoff (e.val (shLink e.shoff i))) = shtStrtab := by
    intro hsym
    have hin := not_or.mp (fun hbad => hlink ⟨hsym, hbad⟩)
    exact ⟨Nat.lt_of_not_le hin.1, not_not.mp hin.2⟩
  have hfits : e.val (shType e.shoff i) ≠ shtNull → e.val (shType e.shoff i) ≠ shtNobits →
      e.val (shOffset e.shoff i) + e.val (shSize e.shoff i) ≤ e.size := by
    intro hnull hnobits
    have hin := hrange' hnull hnobits
    omega
  have hsymbols := checkSymbols_passes h hsht hi hstring
    (fun hsym => hfits (hsym ▸ by decide) (hsym ▸ by decide)) fun hsym => (hlink' hsym).1
  refine Passes.bind (fun _ => rfl) rfl hsymbols fun hsym => ?_
  refine Decides.rejectIf (badStrtab_decides h hsht hi fun hstr =>
      hfits (hstr ▸ by decide) (hstr ▸ by decide)) (fun _ => naming_defined hstring)
    fun hstrtab => ?_
  -- all checks have passed
  refine Passes.done ⟨hname, hrange', hlink', hsym, ?_⟩
  intro hstr
  have hin := not_or.mp (fun hbad => hstrtab ⟨hstr, hbad⟩)
  have hends := not_or.mp hin.2
  exact ⟨hin.1, not_not.mp hends.1, not_not.mp hends.2⟩

/-- **ONE PASS** of the loop over the sections. -/
theorem checkSection_passes (h : TablesOk e.toBuffer) (hsht : e.sht = e.shoff) (hi : i < e.shnum)
    (hnames : NamesOk e.toBuffer) : Passes (e.checkSection e.shstrtab e.shstrtabSize i)
      ((i = 0 → e.val (shType e.shoff i) = shtNull) ∧ SectionOk e.toBuffer i) := by
  obtain ⟨hname, -⟩ := h.fields_inside hi
  refine Decides.rejectIf (notNull_decides h hsht hi) (fun _ => ⟨_, rfl⟩) fun hnull => ?_
  rw [hsht]
  refine Decides.rejectIf (Buffer.test_decides hname decide_eq_true_iff) (fun _ => ⟨_, rfl⟩)
    fun hlt => ?_
  rw [Buffer.get_bind hname]
  refine (checkContents_passes h hsht hi hnames (Nat.lt_of_not_le hlt)).mono ?_
  exact fun hsection => ⟨fun hzero => by_contra fun hne => hnull ⟨hzero, hne⟩, hsection⟩

/-- The loop over the sections. -/
theorem checkSections_passes (h : HeaderOk e.toBuffer) (hsht : e.sht = e.shoff)
    (hnames : NamesOk e.toBuffer) : Passes e.checkSections (Valid e.toBuffer) := by
  obtain ⟨-, -, hoffset, hsize, -⟩ := h.fields_inside h.ndx_lt
  have hstart : e.checkSections
      = firstComplaint (e.checkSection e.shstrtab e.shstrtabSize) 0 e.shnum := by
    rw [checkSections, hsht, Buffer.get_bind (h.inside eShstrndx (by decide))]
    refine (Buffer.get_bind hoffset _).trans ((Buffer.get_bind hsize _).trans ?_)
    exact Buffer.get_bind (h.inside eShnum (by decide)) _
  rw [hstart]
  refine (Passes.countUp _ fun i hi => checkSection_passes h.toTablesOk hsht hi hnames).mono ?_
  intro hall
  exact ⟨h, hnames, (hall 0 (Nat.pos_of_ne_zero h.sections)).1 rfl, fun i hi => (hall i hi).2⟩

/-! ## `validate` -/

/-- `locate` changes two pointers. -/
theorem locate_ok (hheader : sizeofHeader ≤ e.size) :
    e.locate = .ok { e with pht := e.phoff, sht := e.shoff } := by
  have hin : ∀ x, InHeader x → x.off + x.bytes ≤ e.size := fun x hx => Nat.le_trans hx hheader
  rw [locate, Buffer.get_bind (hin ePhoff (by decide)), Buffer.get_bind (hin eShoff (by decide))]
  rfl

/-- What the checks of the header leave. -/
theorem checkHeader_passes (e : ElfInfo) : Passes e.checkHeader
    (sizeofHeader ≤ e.size ∧ e.val eMagic = elfMagic ∧ e.val ePhentsize = sizeofProgram
      ∧ e.val eShentsize = sizeofSection ∧ e.phnum ≠ 0 ∧ e.shnum ≠ 0) := by
  refine Decides.rejectIf (notElf_decides e) (fun _ => ⟨_, rfl⟩) fun helf => ?_
  obtain ⟨hsize, hmagic⟩ := not_or.mp helf
  have hheader := Nat.le_of_not_lt hsize
  refine Decides.rejectIf (oddSizes_decides hheader) (fun _ => ⟨_, rfl⟩) fun hsizes => ?_
  refine Decides.rejectIf (emptyTables_decides hheader) (fun _ => ⟨_, rfl⟩) fun hempty => ?_
  obtain ⟨hph, hsh⟩ := not_or.mp hsizes
  obtain ⟨hphnum, hshnum⟩ := not_or.mp hempty
  exact Passes.done ⟨hheader, not_not.mp hmagic, not_not.mp hph, not_not.mp hsh, hphnum, hshnum⟩

/-- What the checks of the tables leave, if the names can be looked at. -/
theorem checkTables_passes (hsht : e.sht = e.shoff)
    (hheader : sizeofHeader ≤ e.size ∧ e.val eMagic = elfMagic ∧ e.val ePhentsize = sizeofProgram
      ∧ e.val eShentsize = sizeofSection ∧ e.phnum ≠ 0 ∧ e.shnum ≠ 0)
    (hinside : HeaderOk e.toBuffer → NamesInside e.toBuffer) :
    Passes e.checkTables (Valid e.toBuffer) := by
  obtain ⟨hsize, hmagic, hph, hsh, hphnum, hshnum⟩ := hheader
  refine Decides.rejectIf (badOffsets_decides hsize) (fun _ => ⟨_, rfl⟩) fun hoffsets => ?_
  obtain ⟨hpht, hsht'⟩ := not_or.mp hoffsets
  obtain ⟨hphoff, hpht⟩ := not_not.mp hpht
  obtain ⟨hshoff, hsht'⟩ := not_not.mp hsht'
  have htables : TablesOk e.toBuffer := ⟨hsize, hphoff, hpht, hshoff, hsht'⟩
  refine Decides.rejectIf (noShstrtab_decides htables hsht) (fun _ => ⟨_, rfl⟩) fun hstrtab => ?_
  obtain ⟨hndx, hstrtab⟩ := not_or.mp hstrtab
  obtain ⟨hndx_lt, hstrtab⟩ := not_or.mp hstrtab
  obtain ⟨htype, hempty⟩ := not_or.mp hstrtab
  have hok : HeaderOk e.toBuffer := ⟨htables, hmagic, hph, hsh, hphnum, hshnum, hndx,
    Nat.lt_of_not_le hndx_lt, not_not.mp htype, hempty⟩
  refine Decides.rejectIf (badShstrtab_decides hok hsht (hinside hok)) (fun _ => ⟨_, rfl⟩)
    fun hnames => ?_
  exact checkSections_passes hok hsht (not_not.mp hnames)

end ElfInfo

namespace Buffer

/-- `elf_info` with `pht_` and `sht_` set. -/
def located (b : Buffer) : ElfInfo := { b.load with pht := b.phoff, sht := b.shoff }

/-- `elf_info` once `validate` has accepted the file. -/
def accepted (b : Buffer) : ElfInfo := { b.located with ok := true }

variable {b : Buffer}

theorem locate_eq (h : sizeofHeader ≤ b.size) : b.load.locate = .ok b.located :=
  ElfInfo.locate_ok h

/-- A complaint about the header ends the validation. -/
theorem validate_rejected {c : Complaint} (h : b.load.checkHeader = .ok (some c)) :
    b.load.validate = .ok (.rejected c) := by
  rw [ElfInfo.validate, if_neg (show ¬ b.load.ok = true from Bool.false_ne_true), h]
  rfl

/-- `validate` behind the checks of the header. -/
theorem validate_tables (h : b.load.checkHeader = .ok none) (hsize : sizeofHeader ≤ b.size) :
    b.load.validate = b.located.checkTables.map fun c =>
      match c with
      | some c => .rejected c
      | none => .accepted b.accepted := by
  rw [ElfInfo.validate, if_neg (show ¬ b.load.ok = true from Bool.false_ne_true), h]
  show (b.load.locate >>= _) = _
  rw [locate_eq hsize]
  show (b.located.checkTables >>= _) = _
  cases b.located.checkTables with
  | error s => rfl
  | ok c => cases c <;> rfl

/-- Where the names of the sections can be looked at, `validate` keeps inside the
    file, and accepts only what is valid. -/
theorem validate_gives (hinside : HeaderOk b → NamesInside b) :
    Gives b.load.validate fun v => ∀ e, v = .accepted e → Valid b ∧ e = b.accepted := by
  obtain ⟨c, hc, hheader⟩ := ElfInfo.checkHeader_passes b.load
  cases c with
  | some c => exact ⟨_, validate_rejected hc, fun e he => nomatch he⟩
  | none =>
      have hheader := hheader rfl
      have htables : Passes b.located.checkTables (Valid b) :=
        ElfInfo.checkTables_passes (e := b.located) rfl hheader hinside
      rw [validate_tables hc hheader.1]
      refine Gives.map (Gives.mono htables fun c hvalid => ?_)
      cases c with
      | some c => exact fun e he => nomatch he
      | none =>
          intro e he
          cases he
          exact ⟨hvalid rfl, rfl⟩

/-- The checks of a header that is as it should be. -/
theorem checkHeader_none (hok : HeaderOk b) : b.load.checkHeader = .ok none := by
  have hsize : ¬ (b.load.size < sizeofHeader ∨ b.load.val eMagic ≠ elfMagic) :=
    not_or.mpr ⟨Nat.not_lt.mpr hok.header, not_not.mpr hok.magic⟩
  have hsizes := ElfInfo.oddSizes_decides (e := b.load) hok.header
  have hempty := ElfInfo.emptyTables_decides (e := b.load) hok.header
  rw [ElfInfo.checkHeader, rejectIf_false ((ElfInfo.notElf_decides b.load).eq_false hsize),
    rejectIf_false (hsizes.eq_false (not_or.mpr ⟨not_not.mpr hok.phentsize, not_not.mpr hok.shentsize⟩)),
    rejectIf_false (hempty.eq_false (not_or.mpr ⟨hok.programs, hok.sections⟩))]

/-- Behind them only the names and the sections are looked at. -/
theorem checkTables_eq (hok : HeaderOk b) : b.located.checkTables
    = rejectIf b.located.badShstrtab (ElfInfo.about .file "bad section header string table")
        b.located.checkSections := by
  have hoffsets := ElfInfo.badOffsets_decides (e := b.located) hok.header
  have hstrtab := ElfInfo.noShstrtab_decides (e := b.located) hok.toTablesOk rfl
  rw [ElfInfo.checkTables, rejectIf_false (hoffsets.eq_false (not_or.mpr
      ⟨not_not.mpr ⟨hok.phoff, hok.pht⟩, not_not.mpr ⟨hok.shoff, hok.sht⟩⟩)),
    rejectIf_false (hstrtab.eq_false (not_or.mpr ⟨hok.ndx, not_or.mpr ⟨Nat.not_le.mpr hok.ndx_lt,
      not_or.mpr ⟨not_not.mpr hok.strtab, hok.strtabSize⟩⟩⟩))]

/-- Otherwise the names are looked at, and a byte outside the file is read. -/
theorem namesInside_of_defined (h : Defined b.load.validate) (hok : HeaderOk b) :
    NamesInside b := by
  rw [validate_tables (checkHeader_none hok) hok.header, checkTables_eq hok,
    ElfInfo.badShstrtab_eq (e := b.located) hok rfl] at h
  exact (ElfInfo.unterminated_defined_iff hok.strtabSize).mp h.map_inv.bind_inv.defined

/-- `validate` accepts the file. -/
def accepts (b : Buffer) : Bool :=
  match b.load.validate with
  | .ok (.accepted _) => true
  | _ => false

/-- The validation reads inside the file, but for one byte. -/
theorem validate_defined : Defined b.load.validate ↔ (HeaderOk b → NamesInside b) :=
  ⟨namesInside_of_defined, fun hinside => (validate_gives hinside).defined⟩

/-- What is accepted is valid. -/
theorem valid_of_accepted {e : ElfInfo} (h : b.load.validate = .ok (.accepted e)) :
    Valid b ∧ e = b.accepted := by
  obtain ⟨v, hv, hvalid⟩ := validate_gives (validate_defined.mp ⟨_, h⟩)
  exact hvalid e (Except.ok.inj (hv.symm.trans h))

/-- A file that passes the executable test is accepted. -/
theorem validate_of_accepts (h : b.accepts = true) :
    b.load.validate = .ok (.accepted b.accepted) := by
  rw [accepts] at h
  split at h
  case h_1 e hv =>
      obtain ⟨-, rfl⟩ := valid_of_accepted hv
      exact hv
  case h_2 => cases h

end Buffer

/-- **`validate`** reads only bytes of the file if and only if the table of the
    section names is one of those it can look at. -/
theorem validate_defined_iff (b : Buffer) :
    Defined b.load.validate ↔ (HeaderOk b → NamesInside b) :=
  Buffer.validate_defined

/-! ## Files made of fields -/

/-- A string, byte by byte. -/
def text (p : Nat) : List UInt8 → List (Field × Nat)
  | [] => []
  | c :: s => (⟨p, 1⟩, c.toNat) :: text (p + 1) s

/-- A file in which the fields have these values, and all else is zero. -/
def sample (size : Nat) (h : size ≤ 32768) (fields : List (Field × Nat)) : Buffer where
  data := fields.foldr (fun x d => put d x.1.off x.1.bytes x.2) fun _ => 0
  size := size
  capacity := 32768
  fits := h
  small := by decide

/-- The section name table of this file is where the file ends. -/
def namesAtEnd : Buffer :=
  sample 248 (by decide) [(eMagic, elfMagic), (ePhoff, 64), (eShoff, 120),
    (ePhentsize, sizeofProgram), (ePhnum, 1), (eShentsize, sizeofSection), (eShnum, 2),
    (eShstrndx, 1), (shType 120 1, shtStrtab), (shOffset 120 1, 248), (shSize 120 1, 1)]

/-- `shstrtab[0]` is read before anything is known of it. -/
theorem namesAtEnd_read : namesAtEnd.load.validate = .error (.outside 248 1)
    ∧ ¬ Defined namesAtEnd.load.validate := by
  have hread : namesAtEnd.load.validate.map (fun _ => ()) = .error (.outside 248 1) := by
    decide +kernel
  have hstop := map_error_inv hread
  refine ⟨hstop, ?_⟩
  rintro ⟨v, hv⟩
  cases hstop.symm.trans hv

end ElfFile
