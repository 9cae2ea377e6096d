import Cs61.ElfAccepts
import Cs61.ElfMoved
import Mathlib.Data.Set.Function

/-! # The layout of a file, and files with the same sections

    A linker gives the header, the two tables and the contents of every section
    bytes of their own (`LaidOut`).  A step of `mkchickadeesymtab` leaves a file
    with the same sections, perhaps elsewhere, in which only records and the order
    of the symbols may differ (`Refiled`); such a file is again valid, and has the
    same symbols. -/

namespace ElfFile

open ByteFiles Checks

/-! ## Regions -/

/-- The parts of a file. -/
inductive Region where
  | header
  | programs
  | sections
  | contents (i : Nat)
deriving DecidableEq

/-- A byte of a part. -/
def Covers (b : Buffer) : Region → Nat → Prop
  | .header, p => p < sizeofHeader
  | .programs, p => b.phoff ≤ p ∧ p < program b.phoff b.phnum
  | .sections, p => b.shoff ≤ p ∧ p < sect b.shoff b.shnum
  | .contents i, p => i < b.shnum ∧ FileBacked b i ∧ b.val (shOffset b.shoff i) ≤ p
      ∧ p < b.val (shOffset b.shoff i) + b.val (shSize b.shoff i)

/-- No byte is in two parts. -/
def LaidOut (b : Buffer) : Prop := ∀ r r' p, Covers b r p → Covers b r' p → r = r'

/-- Of most types sections have contents. -/
theorem fileBacked_of_type {b : Buffer} {i t : Nat} (h : b.val (shType b.shoff i) = t)
    (ht : t ≠ shtNull ∧ t ≠ shtNobits) : FileBacked b i := by
  rw [FileBacked, h]
  exact ht

namespace LaidOut

variable {b : Buffer} {i k p : Nat} {r r' : Region}

/-- The header and the tables are apart. -/
theorem regular (h : LaidOut b) (hv : HeaderOk b) : Regular b := by
  have hprograms := hv.programs
  have hsections := hv.sections
  refine ⟨?_, ?_, ?_⟩
  · by_contra hlt
    have hfirst : Covers b .programs b.phoff := by
      simp only [Covers, program, sizeofProgram]
      omega
    exact Region.noConfusion (h .header .programs b.phoff (Nat.lt_of_not_le hlt) hfirst)
  · by_contra hlt
    have hfirst : Covers b .sections b.shoff := by
      simp only [Covers, sect, sizeofSection]
      omega
    exact Region.noConfusion (h .header .sections b.shoff (Nat.lt_of_not_le hlt) hfirst)
  · by_contra hmeet
    obtain ⟨hpht, hsht⟩ := not_or.mp hmeet
    have hboth : Covers b .programs (max b.phoff b.shoff)
        ∧ Covers b .sections (max b.phoff b.shoff) := by
      simp only [Covers, program, sect, sizeofProgram, sizeofSection] at hpht hsht ⊢
      omega
    exact Region.noConfusion (h _ _ _ hboth.1 hboth.2)

/-- A byte of an entry of the section header table. -/
theorem covers_sect (hi : i < b.shnum) (hk : k < sizeofSection) :
    Covers b .sections (sect b.shoff i + k) :=
  Buffer.sect_lt hi hk

end LaidOut

/-- A string in a table that ends with a terminator. -/
theorem stringAt_congr {d d' : Bytes} {a a' n p : Nat} {s : List UInt8}
    (hsame : ∀ k, k < n → d' (a' + k) = d (a + k)) (hlast : d (a + n - 1) = 0)
    (hs : ∀ c ∈ s, c ≠ 0) (hp : p < n) : stringAt d' (a' + p) s = stringAt d (a + p) s := by
  induction s generalizing p with
  | nil => rw [stringAt, stringAt, hsame p hp]
  | cons c s ih =>
      rw [stringAt, stringAt, hsame p hp]
      by_cases hc : d (a + p) = c
      · -- a character is not the terminator at the end of the table
        have hnext : p + 1 < n := by
          by_contra hend
          have hend : a + n - 1 = a + p := by omega
          rw [hend, hc] at hlast
          exact hs c List.mem_cons_self hlast
        rw [Nat.add_assoc, Nat.add_assoc,
          ih (fun c' hc' => hs c' (List.mem_cons_of_mem c hc')) hnext]
      · rw [decide_eq_false hc, Bool.false_and, Bool.false_and]

/-! ## Files with the same sections -/

/-- The symbols of `b'` are those of `b`, the `j`th being the old `σ j`th. -/
structure Shuffled (b b' : Buffer) (σ : Nat → Nat) : Prop where
  maps : ∀ j, j < (b.tableOf b.symtabNdx).nsymtab → σ j < (b.tableOf b.symtabNdx).nsymtab
  known : Set.BijOn σ (Set.Iio b.table.nsymtab) (Set.Iio b.table.nsymtab)
  bytes : ∀ j, j < (b.tableOf b.symtabNdx).nsymtab → ∀ k, k < sizeofSymbol →
    b'.data ((entryOf (b'.val (shOffset b'.shoff b.symtabNdx)) j).off + k)
      = b.data ((entryOf (b.val (shOffset b.shoff b.symtabNdx)) (σ j)).off + k)

/-- `b'` has the sections of `b`. -/
structure Refiled (b b' : Buffer) : Prop where
  tables : TablesOk b'
  header : ∀ x ∈ [eMagic, ePhentsize, eShentsize, eShnum, eShstrndx], b'.val x = b.val x
  programs : b'.phnum ≠ 0
  entries : ∀ i, i < b.shnum → ∀ k, k < 8 ∨ (32 ≤ k ∧ k < 48) →
    b'.data (sect b'.shoff i + k) = b.data (sect b.shoff i + k)
  addresses : ∀ i, i < b.shnum → b.val (shType b.shoff i) = shtProgbits →
    b'.val (shAddr b'.shoff i) = b.val (shAddr b.shoff i)
  inside : ∀ i, i < b.shnum → FileBacked b i → b'.val (shOffset b'.shoff i) < b'.size
    ∧ b'.val (shOffset b'.shoff i) + b.val (shSize b.shoff i) ≤ b'.size
  contents : ∀ i, i < b.shnum → FileBacked b i → b.val (shType b.shoff i) ≠ shtProgbits →
    i ≠ b.symtabNdx → ∀ k, k < b.val (shSize b.shoff i) →
      b'.data (b'.val (shOffset b'.shoff i) + k) = b.data (b.val (shOffset b.shoff i) + k)
  symbols : ∃ σ, Shuffled b b' σ

namespace Refiled

variable {b b' : Buffer} {i k n : Nat}

theorem shnum (h : Refiled b b') : b'.shnum = b.shnum := h.header eShnum (by simp)

theorem shstrndx (h : Refiled b b') : b'.shstrndx = b.shstrndx := h.header eShstrndx (by simp)

/-- A field of a section header that stays as it is. -/
theorem val_entry (h : Refiled b b') (hi : i < b.shnum)
    (hk : k + n ≤ 8 ∨ (32 ≤ k ∧ k + n ≤ 48)) :
    b'.val ⟨sect b'.shoff i + k, n⟩ = b.val ⟨sect b.shoff i + k, n⟩ := by
  refine num_congr fun j hj => ?_
  have hj : j < n := hj
  have hsame := h.entries i hi (k + j) (by omega)
  rwa [← Nat.add_assoc, ← Nat.add_assoc] at hsame

theorem name (h : Refiled b b') (hi : i < b.shnum) :
    b'.val (shName b'.shoff i) = b.val (shName b.shoff i) := by
  have hsame := h.val_entry hi (k := 0) (n := 4) (Or.inl (by decide))
  rwa [Nat.add_zero, Nat.add_zero] at hsame

theorem type (h : Refiled b b') (hi : i < b.shnum) :
    b'.val (shType b'.shoff i) = b.val (shType b.shoff i) :=
  h.val_entry hi (Or.inl (by decide))

theorem bytes (h : Refiled b b') (hi : i < b.shnum) :
    b'.val (shSize b'.shoff i) = b.val (shSize b.shoff i) :=
  h.val_entry hi (Or.inr ⟨by decide, by decide⟩)

theorem link (h : Refiled b b') (hi : i < b.shnum) :
    b'.val (shLink b'.shoff i) = b.val (shLink b.shoff i) :=
  h.val_entry hi (Or.inr ⟨by decide, by decide⟩)

theorem fileBacked (h : Refiled b b') (hi : i < b.shnum) : FileBacked b' i ↔ FileBacked b i := by
  rw [FileBacked, FileBacked, h.type hi]

section Sections

variable (h : Refiled b b') (hv : Valid b) (hsym : b.HasSymtab)

include h hv hsym

omit hv in
/-- A string table is where it was filed. -/
theorem strings (hi : i < b.shnum) (hstr : b.val (shType b.shoff i) = shtStrtab)
    (hk : k < b.val (shSize b.shoff i)) :
    b'.data (b'.val (shOffset b'.shoff i) + k) = b.data (b.val (shOffset b.shoff i) + k) := by
  refine h.contents i hi (fileBacked_of_type hstr (by decide)) (by rw [hstr]; decide) ?_ k hk
  rintro rfl
  exact absurd (hstr.symm.trans hsym.type) (by decide)

omit hsym in
theorem shstrtabSize : b'.shstrtabSize = b.shstrtabSize := by
  rw [Buffer.shstrtabSize, h.shstrndx, h.bytes hv.header.ndx_lt]
  rfl

/-- A byte of the table of the section names. -/
theorem names (hk : k < b.shstrtabSize) :
    b'.data (b'.shstrtab + k) = b.data (b.shstrtab + k) := by
  rw [Buffer.shstrtab, h.shstrndx]
  exact h.strings hsym hv.header.ndx_lt hv.header.strtab hk

omit hsym in
/-- The header of the new file is valid. -/
theorem headerOk : HeaderOk b' where
  toTablesOk := h.tables
  magic := (h.header eMagic (by simp)).trans hv.header.magic
  phentsize := (h.header ePhentsize (by simp)).trans hv.header.phentsize
  shentsize := (h.header eShentsize (by simp)).trans hv.header.shentsize
  programs := h.programs
  sections := h.shnum ▸ hv.header.sections
  ndx := h.shstrndx ▸ hv.header.ndx
  ndx_lt := by
    rw [h.shstrndx, h.shnum]
    exact hv.header.ndx_lt
  strtab := by
    rw [h.shstrndx, h.type hv.header.ndx_lt]
    exact hv.header.strtab
  strtabSize := by
    rw [h.shstrtabSize hv]
    exact hv.header.strtabSize

/-- So are the names of its sections. -/
theorem namesOk : NamesOk b' := by
  have hstr := hv.header.strtab
  have hpos := Nat.pos_of_ne_zero hv.header.strtabSize
  obtain ⟨-, hin⟩ := h.inside _ hv.header.ndx_lt (fileBacked_of_type hstr (by decide))
  have hfirst := h.names hv hsym hpos
  rw [Nat.add_zero, Nat.add_zero] at hfirst
  refine ⟨?_, hfirst.trans hv.names.first, ?_⟩
  · rw [Buffer.shstrtab, h.shstrndx, h.shstrtabSize hv]
    exact hin
  · have hlast := h.names hv hsym (Nat.sub_lt hpos Nat.one_pos)
    rw [h.shstrtabSize hv, Nat.add_sub_assoc hpos, hlast, ← Nat.add_sub_assoc hpos]
    exact hv.names.last

omit hv hsym in
/-- The symbols of a table, one of which may be sorted. -/
theorem symbolNames (hi : i < b.shnum) (htype : b.val (shType b.shoff i) = shtSymtab) {j : Nat}
    (hj : j < b.val (shSize b.shoff i) / sizeofSymbol) :
    ∃ j', j' < b.val (shSize b.shoff i) / sizeofSymbol
      ∧ b'.val (stName (b'.val (shOffset b'.shoff i)) j)
        = b.val (stName (b.val (shOffset b.shoff i)) j') := by
  by_cases hndx : i = b.symtabNdx
  · subst hndx
    obtain ⟨σ, hσ⟩ := h.symbols
    refine ⟨σ j, hσ.maps j hj, ?_⟩
    show num b'.data _ 4 = num b.data _ 4
    exact num_congr fun k hk => hσ.bytes j hj k (Nat.lt_trans hk (by decide))
  · refine ⟨j, hj, ?_⟩
    show num b'.data _ 4 = num b.data _ 4
    refine num_congr fun k hk => ?_
    have hall := Nat.div_mul_le_self (b.val (shSize b.shoff i)) sizeofSymbol
    have hupto := Nat.mul_le_mul_right sizeofSymbol (Nat.succ_le_of_lt hj)
    have hsame := h.contents i hi (fileBacked_of_type htype (by decide)) (by rw [htype]; decide) hndx
      (sizeofSymbol * j + k) (by simp only [sizeofSymbol] at hall hupto ⊢; omega)
    rwa [← Nat.add_assoc, ← Nat.add_assoc] at hsame

/-- So are its sections. -/
theorem sectionOk (hi : i < b.shnum) : SectionOk b' i := by
  have hok := hv.sections i hi
  have hinside := h.inside i hi
  refine ⟨?_, ?_, ?_, ?_, ?_⟩
  · rw [h.name hi, h.shstrtabSize hv]
    exact hok.name
  · rw [h.type hi, h.bytes hi]
    intro hnull hnobits
    obtain ⟨hstart, hend⟩ := hinside ⟨hnull, hnobits⟩
    exact ⟨hstart, by omega⟩
  · rw [h.type hi, h.link hi, h.shnum]
    intro htype
    obtain ⟨hlt, hstr⟩ := hok.link htype
    exact ⟨hlt, (h.type hlt).trans hstr⟩
  · rw [h.type hi, h.link hi, h.bytes hi]
    intro htype j hj
    obtain ⟨hlt, -⟩ := hok.link htype
    obtain ⟨j', hj', hname⟩ := h.symbolNames hi htype hj
    rw [hname, h.bytes hlt]
    exact hok.symbols htype j' hj'
  · rw [h.type hi, h.bytes hi]
    intro hstr
    obtain ⟨hne, hfirst, hlast⟩ := hok.strtab hstr
    have hpos := Nat.pos_of_ne_zero hne
    have hsame := h.strings hsym hi hstr hpos
    rw [Nat.add_zero, Nat.add_zero] at hsame
    refine ⟨hne, hsame.trans hfirst, ?_⟩
    have hsame := h.strings hsym hi hstr (Nat.sub_lt hpos Nat.one_pos)
    rw [Nat.add_sub_assoc hpos, hsame, ← Nat.add_sub_assoc hpos]
    exact hlast

/-- **VALID FILES** are valid when they are filed again. -/
theorem valid : Valid b' where
  header := h.headerOk hv
  names := h.namesOk hv hsym
  null := (h.type (Nat.pos_of_ne_zero hv.header.sections)).trans hv.null
  sections := fun _ hi => h.sectionOk hv hsym (h.shnum ▸ hi)

/-- Sections are found by their names as before. -/
theorem sectionNamedFrom_eq (name : CString) (m i : Nat) (hm : i + m = b.shnum) :
    b'.sectionNamedFrom name i m = b.sectionNamedFrom name i m := by
  induction m generalizing i with
  | zero => rfl
  | succ m ih =>
      have hi : i < b.shnum := by omega
      rw [Buffer.sectionNamedFrom, Buffer.sectionNamedFrom, h.name hi,
        stringAt_congr (fun k hk => h.names hv hsym hk) hv.names.last name.nulFree
          (hv.sections i hi).name, ih (i + 1) (by omega)]

/-- Sections are found at the same index. -/
theorem symtabNdx_eq : b'.symtabNdx = b.symtabNdx := by
  rw [Buffer.symtabNdx, Buffer.sectionNamed, h.shnum]
  exact h.sectionNamedFrom_eq hv hsym _ b.shnum 0 (Nat.zero_add _)

/-- The symbol table is where it was. -/
theorem hasSymtab : b'.HasSymtab := by
  have hndx := h.symtabNdx_eq hv hsym
  refine ⟨hndx ▸ hsym.ndx, ?_⟩
  rw [hndx, h.type (Buffer.symtabNdx_lt hv)]
  exact hsym.type

/-- It is linked as before. -/
theorem linked (hlinked : b.Linked) : b'.Linked := by
  have hndx := h.symtabNdx_eq hv hsym
  refine ⟨h.hasSymtab hv hsym, ?_⟩
  rw [hndx, h.link (Buffer.symtabNdx_lt hv)]
  exact hlinked.link

/-- It has as many symbols. -/
theorem nsymtab_eq : b'.table.nsymtab = b.table.nsymtab := by
  show b'.val (shSize b'.shoff b'.symtabNdx) / sizeofSymbol % 2 ^ 32 = _
  rw [h.symtabNdx_eq hv hsym, h.bytes (Buffer.symtabNdx_lt hv)]
  rfl

end Sections

/-! ## The same symbols -/

section Symbols

variable {σ : Nat → Nat} {name : CString} {j o w : Nat}

variable (h : Refiled b b') (hv : Valid b) (hsym : b.HasSymtab) (hσ : Shuffled b b' σ)

include h hv hsym

theorem table_symtab : b'.table.symtab = b'.val (shOffset b'.shoff b.symtabNdx) := by
  rw [← h.symtabNdx_eq hv hsym]
  rfl

/-- The string table of the symbols is filed again with them. -/
theorem symbolStrings (hk : k < b.val (shSize b.shoff (b.val (shLink b.shoff b.symtabNdx)))) :
    b'.data (b'.table.symstrtab + k) = b.data (b.table.symstrtab + k) := by
  have hlt := Buffer.symtabNdx_lt hv
  obtain ⟨hlink, hstr⟩ := (hv.sections _ hlt).link hsym.type
  have hplace : b'.table.symstrtab
      = b'.val (shOffset b'.shoff (b.val (shLink b.shoff b.symtabNdx))) := by
    rw [← h.link hlt, ← h.symtabNdx_eq hv hsym]
    rfl
  rw [hplace]
  exact h.strings hsym hlink hstr hk

include hσ

/-- A field of a symbol. -/
theorem val_symbol (hj : j < b.table.nsymtab) (ho : o + w ≤ sizeofSymbol) :
    b'.val ⟨b'.table.symtab + sizeofSymbol * j + o, w⟩
      = b.val ⟨b.table.symtab + sizeofSymbol * σ j + o, w⟩ := by
  have hj' : j < (b.tableOf b.symtabNdx).nsymtab := Nat.lt_of_lt_of_le hj (Nat.mod_le _ _)
  rw [h.table_symtab hv hsym]
  show num b'.data _ w = num b.data _ w
  refine num_congr fun k hk => ?_
  rw [Nat.add_assoc _ o k, Nat.add_assoc _ o k]
  exact hσ.bytes j hj' (o + k) (by omega)

/-- A symbol has the name of the one it was. -/
theorem named_iff (hj : j < b.table.nsymtab) :
    Named b' b'.table name j ↔ Named b b.table name (σ j) := by
  have hlt := Buffer.symtabNdx_lt hv
  obtain ⟨hlink, hstr⟩ := (hv.sections _ hlt).link hsym.type
  have hj' : σ j < (b.tableOf b.symtabNdx).nsymtab :=
    hσ.maps j (Nat.lt_of_lt_of_le hj (Nat.mod_le _ _))
  have hlast := ((hv.sections _ hlink).strtab hstr).2.2
  have hname := h.val_symbol hv hsym hσ hj (o := 0) (w := 4) (by decide)
  have hin : b.val ⟨b.table.symtab + sizeofSymbol * σ j, 4⟩
      < b.val (shSize b.shoff (b.val (shLink b.shoff b.symtabNdx))) :=
    (hv.sections _ hlt).symbols hsym.type (σ j) hj'
  have hstring : stringAt b'.data
        (b'.table.symstrtab + b.val ⟨b.table.symtab + sizeofSymbol * σ j, 4⟩) name.bytes
      = stringAt b.data
        (b.table.symstrtab + b.val ⟨b.table.symtab + sizeofSymbol * σ j, 4⟩) name.bytes :=
    stringAt_congr (fun k hk => h.symbolStrings hv hsym hk) hlast name.nulFree hin
  rw [Nat.add_zero, Nat.add_zero] at hname
  rw [Named, Named, nameOf, nameOf, stName, stName, hname, hstring]

/-- A symbol refers to the section of the one it was. -/
theorem sectionOf_eq (hj : j < b.table.nsymtab) :
    sectionOf b' b'.table j = sectionOf b b.table (σ j) :=
  h.val_symbol hv hsym hσ hj (by decide)

/-- A symbol has the value of the one it was. -/
theorem valueOf_eq (hj : j < b.table.nsymtab) :
    valueOf b' b'.table j = valueOf b b.table (σ j) :=
  h.val_symbol hv hsym hσ hj (by decide)

/-- A symbol is of the type and size of a record if the one it was is. -/
theorem defines_iff (hj : j < b.table.nsymtab) :
    Defines b' b'.table j ↔ Defines b b.table (σ j) := by
  have hinfo := h.val_symbol hv hsym hσ hj (o := 4) (w := 1) (by decide)
  rw [Defines, Defines, h.sectionOf_eq hv hsym hσ hj, h.shnum, stInfo, stInfo, hinfo]

/-- A symbol is a record if the one it was is. -/
theorem record_iff (hj : j < b.table.nsymtab) (hk : sectionOf b b.table (σ j) < b.shnum) :
    Record b' b'.table j ↔ Record b b.table (σ j) := by
  have hsize := h.val_symbol hv hsym hσ hj (o := 16) (w := 8) (by decide)
  rw [Record, Record, h.sectionOf_eq hv hsym hσ hj, h.type hk, stSize, stSize, hsize]

/-- The addresses of the section of a record. -/
theorem section_eq (hj : j < b.table.nsymtab) (hk : sectionOf b b.table (σ j) < b.shnum)
    (hprogbits : b.val (shType b.shoff (sectionOf b b.table (σ j))) = shtProgbits) :
    addrOf b' b'.table j = addrOf b b.table (σ j)
      ∧ bytesOf b' b'.table j = bytesOf b b.table (σ j) := by
  rw [addrOf, addrOf, bytesOf, bytesOf, h.sectionOf_eq hv hsym hσ hj]
  exact ⟨h.addresses _ hk hprogbits, h.bytes hk⟩

/-- It is judged alike. -/
theorem accepted_iff (hj : j < b.table.nsymtab) (hk : sectionOf b b.table (σ j) < b.shnum) :
    Accepted b' b'.table j ↔ Accepted b b.table (σ j) := by
  rw [Accepted, Accepted, h.record_iff hv hsym hσ hj hk, h.valueOf_eq hv hsym hσ hj]
  refine and_congr_right fun hrecord => ?_
  obtain ⟨haddr, hbytes⟩ := h.section_eq hv hsym hσ hj hk hrecord.2
  rw [haddr, hbytes]

/-- Its bytes are in its section if they were. -/
theorem inside_iff (hj : j < b.table.nsymtab) (hk : sectionOf b b.table (σ j) < b.shnum) :
    Inside b' b'.table j ↔ Inside b b.table (σ j) := by
  rw [Inside, Inside, h.record_iff hv hsym hσ hj hk, h.valueOf_eq hv hsym hσ hj]
  refine and_congr_right fun hrecord => ?_
  obtain ⟨haddr, hbytes⟩ := h.section_eq hv hsym hσ hj hk hrecord.2
  rw [haddr, hbytes]

/-- **THE SYMBOLS** with the name are those that were shuffled there. -/
theorem object_iff :
    Object b' b'.table name j ↔ j < b.table.nsymtab ∧ Object b b.table name (σ j) := by
  rw [Object, h.nsymtab_eq hv hsym]
  refine and_congr_right fun hj => ?_
  rw [h.named_iff hv hsym hσ hj, h.defines_iff hv hsym hσ hj, Object]
  exact (and_iff_right (hσ.known.mapsTo hj)).symm

end Symbols

end Refiled

end ElfFile
