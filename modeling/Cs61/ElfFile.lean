import Cs61.ByteFiles
import Cs61.Checks

/-! # The ELF file of `mkchickadeesymtab`, and its validation

    A file is read into a buffer.  A pointer into the buffer is its distance from
    `data_`, and a read that is not inside `[0, size_)` stops the program
    (`Stop.outside`): the rest of the buffer was never written.  The fields of the
    headers and tables are numbers at places (`Field`); arithmetic on them is that
    of `uint64_t`. -/

namespace ElfFile

open ByteFiles Checks

/-! ## The buffer -/

/-- Which part of the file a message names. -/
inductive Part where
  | file
  | index (i : Nat)
  | name (s : List UInt8)
  | empty
  | program (i : Nat)
  | unnamed
deriving DecidableEq

/-- A message on `stderr`; a refused shift also prints four numbers. -/
structure Complaint where
  part : Part
  text : String
  shifting : List Nat
deriving DecidableEq

/-- Why a function does not return. -/
inductive Stop where
  | outside (off bytes : Nat)
  | assertion
  | badAlloc
  | exit (c : Complaint)
deriving DecidableEq

/-- `data_`, `size_`, `capacity_`; no object is larger than `PTRDIFF_MAX`. -/
structure Buffer where
  data : Bytes
  size : Nat
  capacity : Nat
  fits : size ≤ capacity
  small : capacity < 2 ^ 63

/-- `symtab_`, `nsymtab_`, `symstrtab_`. -/
structure SymtabCache where
  symtab : Nat
  nsymtab : Nat
  symstrtab : Nat
deriving DecidableEq

/-- `elf_info`; no cache is a null `symtab_`. -/
structure ElfInfo extends Buffer where
  changed : Bool
  ok : Bool
  pht : Nat
  sht : Nat
  cache : Option SymtabCache

/-- A file that was read and not looked at. -/
def Buffer.load (b : Buffer) : ElfInfo :=
  { b with changed := false, ok := false, pht := 0, sht := 0, cache := none }

/-- A number in the file. -/
structure Field where
  off : Nat
  bytes : Nat

/-- `e_magic`. -/
def eMagic : Field := ⟨0, 4⟩
/-- `e_phoff`: where the program header table is. -/
def ePhoff : Field := ⟨0x20, 8⟩
/-- `e_shoff`: where the section header table is. -/
def eShoff : Field := ⟨0x28, 8⟩
/-- `e_phentsize`: the size of a program header. -/
def ePhentsize : Field := ⟨0x36, 2⟩
/-- `e_phnum`: how many there are. -/
def ePhnum : Field := ⟨0x38, 2⟩
/-- `e_shentsize`: the size of a section header. -/
def eShentsize : Field := ⟨0x3a, 2⟩
/-- `e_shnum`: how many there are. -/
def eShnum : Field := ⟨0x3c, 2⟩
/-- `e_shstrndx`: the section that holds the names of sections. -/
def eShstrndx : Field := ⟨0x3e, 2⟩

/-- `sizeof(elf_header)`. -/
def sizeofHeader : Nat := 64
/-- `sizeof(elf_program)`. -/
def sizeofProgram : Nat := 56
/-- `sizeof(elf_section)`. -/
def sizeofSection : Nat := 64
/-- `sizeof(elf_symbol)`. -/
def sizeofSymbol : Nat := 24

/-- `ELF_MAGIC`. -/
def elfMagic : Nat := 0x464C457F
/-- `ELF_SHT_NULL`. -/
def shtNull : Nat := 0
/-- `ELF_SHT_SYMTAB`. -/
def shtSymtab : Nat := 2
/-- `ELF_SHT_STRTAB`. -/
def shtStrtab : Nat := 3
/-- `ELF_SHT_NOBITS`: the section has no bytes in the file. -/
def shtNobits : Nat := 8

/-- `pht[i]`. -/
def program (pht i : Nat) : Nat := pht + sizeofProgram * i

/-- `p_offset`: where the segment is in the file. -/
def pOffset (pht i : Nat) : Field := ⟨program pht i + 8, 8⟩
/-- `p_filesz`: how many of its bytes are there. -/
def pFilesz (pht i : Nat) : Field := ⟨program pht i + 32, 8⟩

/-- `sht[i]`. -/
def sect (sht i : Nat) : Nat := sht + sizeofSection * i

/-- `sh_name`: the name, as an offset in the section of the names. -/
def shName (sht i : Nat) : Field := ⟨sect sht i, 4⟩
/-- `sh_type`. -/
def shType (sht i : Nat) : Field := ⟨sect sht i + 4, 4⟩
/-- `sh_offset`: where the section is in the file. -/
def shOffset (sht i : Nat) : Field := ⟨sect sht i + 24, 8⟩
/-- `sh_size`. -/
def shSize (sht i : Nat) : Field := ⟨sect sht i + 32, 8⟩
/-- `sh_link`: for a symbol table, the section of its names. -/
def shLink (sht i : Nat) : Field := ⟨sect sht i + 40, 4⟩

/-- `st_name` of `sym[j]`. -/
def stName (sym j : Nat) : Field := ⟨sym + sizeofSymbol * j, 4⟩

namespace Buffer

/-- What stands in a field. -/
def val (b : Buffer) (x : Field) : Nat := num b.data x.off x.bytes

/-- What a program reads there. -/
def get (b : Buffer) (x : Field) : Except Stop Nat :=
  if x.off + x.bytes ≤ b.size then .ok (b.val x) else .error (.outside x.off x.bytes)

/-- A `char`. -/
def char (b : Buffer) (p : Nat) : Except Stop UInt8 :=
  if p < b.size then .ok (b.data p) else .error (.outside p 1)

/-- The string at `p`, for which `n` bytes are left. -/
def stringIn (b : Buffer) : Nat → Nat → Except Stop (List UInt8)
  | 0, p => .error (.outside p 1)
  | n + 1, p => if b.data p = 0 then .ok [] else (stringIn b n (p + 1)).map (b.data p :: ·)

/-- What `%s` prints. -/
def string (b : Buffer) (p : Nat) : Except Stop (List UInt8) := b.stringIn (b.size - p) p

/-- A comparison of a field. -/
def test (b : Buffer) (x : Field) (p : Nat → Bool) : Except Stop Bool := (b.get x).map p

end Buffer

namespace ElfInfo

/-! ## `validate` -/

/-- A message about a part, without numbers. -/
def about (part : Part) (text : String) : Except Stop Complaint := .ok ⟨part, text, []⟩

/-- `size_ < sizeof(elf_header) || eh->e_magic != ELF_MAGIC`. -/
def notElf (e : ElfInfo) : Except Stop Bool :=
  either (.ok (e.size < sizeofHeader)) (e.test eMagic (· ≠ elfMagic))

/-- The entries of a table have not the size of the tool's structures. -/
def oddSizes (e : ElfInfo) : Except Stop Bool :=
  either (e.test ePhentsize (· ≠ sizeofProgram)) (e.test eShentsize (· ≠ sizeofSection))

/-- One of the tables has no entry. -/
def emptyTables (e : ElfInfo) : Except Stop Bool :=
  either (e.test ePhnum (· = 0)) (e.test eShnum (· = 0))

/-- A table that does not fit in the file. -/
def badTable (e : ElfInfo) (offset entry count : Nat) : Bool :=
  offset ≥ e.size || (e.size - offset) / entry < count

/-- One of the tables does not lie in the file. -/
def badOffsets (e : ElfInfo) : Except Stop Bool := do
  either (.ok (e.badTable (← e.get ePhoff) sizeofProgram (← e.get ePhnum)))
    (.ok (e.badTable (← e.get eShoff) sizeofSection (← e.get eShnum)))

/-- There is no section of the names, or it is no string table in the file. -/
def noShstrtab (e : ElfInfo) : Except Stop Bool := do
  let ndx ← e.get eShstrndx
  either (.ok (ndx = 0)) <| either (e.test eShnum (ndx ≥ ·)) <|
    either (e.test (shType e.sht ndx) (· ≠ shtStrtab)) (e.test (shSize e.sht ndx) (· = 0))

/-- `table[0] != 0 || table[size - 1] != 0`. -/
def unterminated (e : ElfInfo) (table size : Nat) : Except Stop Bool :=
  either ((e.char table).map (· ≠ 0)) ((e.char (table + size - 1)).map (· ≠ 0))

/-- The section of the names does not end in a null byte. -/
def badShstrtab (e : ElfInfo) : Except Stop Bool := do
  let ndx ← e.get eShstrndx
  e.unterminated (← e.get (shOffset e.sht ndx)) (← e.get (shSize e.sht ndx))

/-- The first section header is not the null one. -/
def notNull (e : ElfInfo) (i : Nat) : Except Stop Bool :=
  both (.ok (i = 0)) (e.test (shType e.sht i) (· ≠ shtNull))

/-- The section has contents in the file. -/
def fileBacked (e : ElfInfo) (i : Nat) : Except Stop Bool :=
  both (e.test (shType e.sht i) (· ≠ shtNull)) (e.test (shType e.sht i) (· ≠ shtNobits))

/-- A section with bytes in the file does not lie in the file. -/
def badRange (e : ElfInfo) (i : Nat) : Except Stop Bool :=
  both (e.fileBacked i) <| either (e.test (shOffset e.sht i) (· ≥ e.size)) <| do
    let offset ← e.get (shOffset e.sht i)
    e.test (shSize e.sht i) (· > e.size - offset)

/-- A symbol table is not linked to a string table. -/
def badLink (e : ElfInfo) (i : Nat) : Except Stop Bool :=
  both (e.test (shType e.sht i) (· = shtSymtab)) <| do
    let link ← e.get (shLink e.sht i)
    either (e.test eShnum (link ≥ ·)) (e.test (shType e.sht link) (· ≠ shtStrtab))

/-- A message with the string at `p`. -/
def naming (e : ElfInfo) (p : Nat) (text : String) : Except Stop Complaint :=
  (e.string p).map fun s => ⟨.name s, text, []⟩

/-- The names of all symbols of a symbol table are checked. -/
def checkSymbols (e : ElfInfo) (i name : Nat) : Except Stop (Option Complaint) := do
  if ← e.test (shType e.sht i) (· = shtSymtab) then
    let sym ← e.get (shOffset e.sht i)
    let size ← e.get (shSize e.sht i)
    let strsize ← e.get (shSize e.sht (← e.get (shLink e.sht i)))
    firstComplaint (fun j => rejectIf (e.test (stName sym j) (· ≥ strsize))
      (e.naming name "symbol name out of range") (.ok none)) 0 (size / sizeofSymbol)
  else .ok none

/-- A string table is empty, or does not end in a null byte. -/
def badStrtab (e : ElfInfo) (i : Nat) : Except Stop Bool :=
  both (e.test (shType e.sht i) (· = shtStrtab)) <| either (e.test (shSize e.sht i) (· = 0)) <| do
    e.unterminated (← e.get (shOffset e.sht i)) (← e.get (shSize e.sht i))

/-- The checks of one section behind that of its name, which is at `name`. -/
def checkContents (e : ElfInfo) (i name : Nat) : Except Stop (Option Complaint) := do
  let first ← e.char name
  rejectIf (e.badRange i)
      (if first ≠ 0 then e.naming name "bad offset/size" else about .empty "bad offset/size") <|
    rejectIf (e.badLink i) (e.naming name "bad linked string table") <| do
      match ← e.checkSymbols i name with
      | some c => .ok (some c)
      | none => rejectIf (e.badStrtab i) (e.naming name "bad string table contents") (.ok none)

/-- One pass of the loop over the sections. -/
def checkSection (e : ElfInfo) (shstrtab shstrtabSize i : Nat) : Except Stop (Option Complaint) :=
  rejectIf (e.notNull i) (about .file "should start with null section") <|
    rejectIf (e.test (shName e.sht i) (· ≥ shstrtabSize)) (about (.index i) "bad section name") <| do
      e.checkContents i (shstrtab + (← e.get (shName e.sht i)))

/-- All sections are checked, in order. -/
def checkSections (e : ElfInfo) : Except Stop (Option Complaint) := do
  let ndx ← e.get eShstrndx
  let shstrtab ← e.get (shOffset e.sht ndx)
  let shstrtabSize ← e.get (shSize e.sht ndx)
  firstComplaint (e.checkSection shstrtab shstrtabSize) 0 (← e.get eShnum)

/-- The checks before `pht_` and `sht_` are set. -/
def checkHeader (e : ElfInfo) : Except Stop (Option Complaint) :=
  rejectIf e.notElf (about .file "not an ELF file") <|
    rejectIf e.oddSizes (about .file "unexpected component sizes") <|
      rejectIf e.emptyTables (about .file "empty components") (.ok none)

/-- The pointers to the two tables are set. -/
def locate (e : ElfInfo) : Except Stop ElfInfo := do
  pure { e with pht := ← e.get ePhoff, sht := ← e.get eShoff }

/-- The checks behind those of the header. -/
def checkTables (e : ElfInfo) : Except Stop (Option Complaint) :=
  rejectIf e.badOffsets (about .file "bad offsets") <|
    rejectIf e.noShstrtab (about .file "no section header string table") <|
      rejectIf e.badShstrtab (about .file "bad section header string table") e.checkSections

/-- What `validate` returns. -/
inductive Verdict where
  | accepted (e : ElfInfo)
  | rejected (c : Complaint)

/-- `validate()`. -/
def validate (e : ElfInfo) : Except Stop Verdict := do
  if e.ok then .ok (.accepted e) else
    match ← e.checkHeader with
    | some c => .ok (.rejected c)
    | none =>
        let e ← e.locate
        match ← e.checkTables with
        | some c => .ok (.rejected c)
        | none => .ok (.accepted { e with ok := true })

end ElfInfo

end ElfFile
