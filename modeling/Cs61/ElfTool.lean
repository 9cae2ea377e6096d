import Cs61.ElfSymbols
import Cs61.SymtabRef

/-! # `mkchickadeesymtab`

    The whole program, behind its options and the reading of the file.  The
    symbol table is moved to a page boundary, the records of its address are
    filled in, its entries are sorted, and if it has an address it is marked as
    allocated and gets a program header of its own. -/

namespace ElfFile

open ByteFiles Checks LoopRules ElfSymbols

/-- `sh_flags`. -/
def shFlags (sht i : Nat) : Field := ⟨sect sht i + 8, 8⟩
/-- `sh_addralign`. -/
def shAddralign (sht i : Nat) : Field := ⟨sect sht i + 48, 8⟩

/-- `p_type`. -/
def pType (pht i : Nat) : Field := ⟨program pht i, 4⟩
/-- `p_flags`. -/
def pFlags (pht i : Nat) : Field := ⟨program pht i + 4, 4⟩
/-- `p_va`. -/
def pVa (pht i : Nat) : Field := ⟨program pht i + 16, 8⟩
/-- `p_pa`. -/
def pPa (pht i : Nat) : Field := ⟨program pht i + 24, 8⟩
/-- `p_memsz`. -/
def pMemsz (pht i : Nat) : Field := ⟨program pht i + 40, 8⟩
/-- `p_align`. -/
def pAlign (pht i : Nat) : Field := ⟨program pht i + 48, 8⟩

/-- `ELF_SHF_ALLOC`. -/
def shfAlloc : Nat := 2
/-- `ELF_PTYPE_LOAD`. -/
def ptypeLoad : Nat := 1
/-- `ELF_PFLAG_READ`. -/
def pflagRead : Nat := 4
/-- The tables start on a page boundary. -/
def pageSize : Nat := 0x1000

/-! ## Writes -/

namespace ElfInfo

/-- A write, which is to be inside the file. -/
def store (e : ElfInfo) (x : Field) (v : Nat) : Except Stop ElfInfo :=
  if x.off + x.bytes ≤ e.size then .ok (e.set x v) else .error (.outside x.off x.bytes)

/-- One write after the other. -/
def storeAll (e : ElfInfo) : List (Field × Nat) → Except Stop ElfInfo
  | [] => .ok e
  | (x, v) :: rest => e.store x v >>= fun e => e.storeAll rest

/-- `memmove(dst, src, n)`. -/
def moveBytes (e : ElfInfo) (dst src n : Nat) : Except Stop ElfInfo :=
  if src + n ≤ e.size ∧ dst + n ≤ e.size then
    .ok (e.rewritten (move e.data dst src n) e.changed)
  else .error (.outside dst n)

/-- `changed_ = true`. -/
def touched (e : ElfInfo) : ElfInfo := { e with changed := true }

end ElfInfo

/-! ## `sort_symtab` -/

/-- The 24 bytes of an entry, as one number. -/
def entryOf (sym j : Nat) : Field := ⟨sym + sizeofSymbol * j, sizeofSymbol⟩

/-- The entry with these bytes. -/
def symbolOf (v : Nat) : ElfSymbol where
  stName := .ofNat 32 v
  stInfo := .ofNat 8 (v / 2 ^ 32)
  stOther := .ofNat 8 (v / 2 ^ 40)
  stShndx := .ofNat 16 (v / 2 ^ 48)
  stValue := .ofNat 64 (v / 2 ^ 64)
  stSize := .ofNat 64 (v / 2 ^ 128)

/-- The 24 bytes of a symbol, as one little-endian number. -/
def bytesOfSymbol (s : ElfSymbol) : Nat :=
  s.stName.toNat + 2 ^ 32 * s.stInfo.toNat + 2 ^ 40 * s.stOther.toNat + 2 ^ 48 * s.stShndx.toNat
    + 2 ^ 64 * s.stValue.toNat + 2 ^ 128 * s.stSize.toNat

namespace ElfInfo

/-- `symtab_[j]`. -/
def symbolAt (e : ElfInfo) (c : SymtabCache) (j : Nat) : Except Stop ElfSymbol :=
  (e.get (entryOf c.symtab j)).map symbolOf

/-- `while (i < nsymtab_ && !symbol_less(symtab_[i], symtab_[i - 1])) ++i;`, with `n`
    symbols to go. -/
def firstUnordered (e : ElfInfo) (c : SymtabCache) : Nat → Nat → Except Stop Nat
  | i, 0 => .ok i
  | i, n + 1 => do
      if symbolLess (← e.symbolAt c i) (← e.symbolAt c (i - 1)) then .ok i
      else firstUnordered e c (i + 1) n

/-- The `n` symbols from `symtab_[i]` on. -/
def symbolsFrom (e : ElfInfo) (c : SymtabCache) : Nat → Nat → Except Stop (List ElfSymbol)
  | _, 0 => .ok []
  | i, n + 1 => do .ok ((← e.symbolAt c i) :: (← symbolsFrom e c (i + 1) n))

/-- The entries from `symtab_[i]` on, and what they become. -/
def entriesFrom (c : SymtabCache) : Nat → List ElfSymbol → List (Field × Nat)
  | _, [] => []
  | i, s :: rest => (entryOf c.symtab i, bytesOfSymbol s) :: entriesFrom c (i + 1) rest

/-- `sort_symtab()`. -/
def sortSymtab (e : ElfInfo) : Except Stop ElfInfo := do
  let e ← e.symtab
  let c := e.cache.getD ⟨0, 0, 0⟩
  if (← e.firstUnordered c 2 (c.nsymtab - 2)) < c.nsymtab then
    let syms ← e.symbolsFrom c 1 (c.nsymtab - 1)
    let e ← e.storeAll (entriesFrom c 1 (syms.mergeSort fun a b => !symbolLess b a))
    .ok e.touched
  else .ok e

end ElfInfo

/-! ## The steps of `main` -/

/-- What the options say; `inPlace` if the only file that is named is read and
    written. -/
structure Options where
  loadaddr : Nat
  name : CString
  nameSet : Bool
  inPlace : Bool

/-- `first_offset`, `strtab_offset`, `last_offset`. -/
structure Range where
  first : Nat
  strtab : Nat
  last : Nat

/-- Differences of offsets, in 64 bits. -/
def Range.strtabOff (r : Range) : Nat := (r.strtab + (2 ^ 64 - r.first)) % 2 ^ 64
/-- The size that the program header gets, in 64 bits. -/
def Range.size (r : Range) : Nat := (r.last + (2 ^ 64 - r.first)) % 2 ^ 64

namespace ElfInfo

/-- The file is validated, or the program ends with the complaint. -/
def accept (e : ElfInfo) : Except Stop ElfInfo := do
  match ← e.validate with
  | .accepted e => .ok e
  | .rejected c => .error (.exit c)

/-- `symtabndx`. -/
def symtabSection (e : ElfInfo) : Except Stop Nat := do
  let i ← e.findSection symtabName
  if ← either (.ok (i = 0)) (e.test (shType e.sht i) (· ≠ shtSymtab)) then
    .error (.exit ⟨.file, "no .symtab section", []⟩)
  else if ← either (do e.test eShnum ((← e.get (shLink e.sht i)) ≥ ·)) (either
      (e.test (shLink e.sht i) (· ≠ i + 1)) (do
        e.test (shType e.sht (← e.get (shLink e.sht i))) (· ≠ shtStrtab))) then
    .error (.exit ⟨.file, ".symtab has unexpected links", []⟩)
  else .ok i

/-- The symbol table on a page boundary. -/
def alignSymtab (e : ElfInfo) (i budget : Nat) : Option (Except Stop ElfInfo) :=
  andThen (some (e.get (shOffset e.sht i))) fun offset =>
    if h : offset % pageSize ≠ 0 then
      andThen (some do
        if ← e.test (shAddralign e.sht i) (· < pageSize) then
          .ok (e.set (shAddralign e.sht i) pageSize).touched
        else .error .assertion) fun e =>
          e.shiftSections ⟨offset, pageSize - offset % pageSize,
            Nat.sub_pos_of_lt (Nat.mod_lt _ (by decide)),
            Nat.lt_of_le_of_lt (Nat.sub_le _ _) (by decide)⟩ budget
    else some (.ok e)

/-- Where the symbol table and its string table are. -/
def range (e : ElfInfo) (i : Nat) : Except Stop Range := do
  let first ← e.get (shOffset e.sht i)
  let strtab ← e.get (shOffset e.sht (i + 1))
  let size ← e.get (shSize e.sht (i + 1))
  .ok ⟨first, strtab, (strtab + size) % 2 ^ 64⟩

/-- A section is marked as allocated. -/
def markSection (e : ElfInfo) (i addr : Nat) : Except Stop ElfInfo := do
  let flags ← e.get (shFlags e.sht i)
  if flags &&& shfAlloc = 0 then
    let e ← e.storeAll [(shFlags e.sht i, flags ||| shfAlloc), (shAddr e.sht i, addr)]
    .ok e.touched
  else .ok e

/-- The two sections are marked as allocated, at the address of the tables. -/
def markSymtab (e : ElfInfo) (i : Nat) (r : Range) (loadaddr : Nat) : Except Stop ElfInfo := do
  let e ← e.markSection i loadaddr
  e.markSection (i + 1) ((loadaddr + r.strtab + (2 ^ 64 - r.first)) % 2 ^ 64)

/-- The search for the program header, with `n` headers to go. -/
def findProgramFrom (e : ElfInfo) (loadaddr : Nat) : Nat → Nat → Except Stop Nat
  | i, 0 => .ok i
  | i, n + 1 => do
      if ((← e.get (pVa e.pht i)) + (← e.get (pFilesz e.pht i))) % 2 ^ 64 < loadaddr then
        findProgramFrom e loadaddr (i + 1) n
      else .ok i

/-- `found`. -/
def isProgram (e : ElfInfo) (i loadaddr : Nat) (r : Range) : Except Stop Bool := do
  let phnum ← e.get ePhnum
  both (.ok (i ≠ phnum)) <| both (e.test (pVa e.pht i) (· = loadaddr)) <|
    both (e.test (pOffset e.pht i) (· = r.first)) (e.test (pFilesz e.pht i) (· ≥ r.size))

/-- There is room behind the program headers. -/
def noRoom (e : ElfInfo) : Except Stop Bool := do
  let offset0 ← e.firstOffset
  let phoff ← e.get ePhoff
  let phnum ← e.get ePhnum
  either (.ok ((phoff + (phnum + 1) * sizeofProgram) % 2 ^ 64 > offset0)) (e.test eShoff (· ≤ offset0))

/-- The fields of the new header. -/
def newProgram (pht i loadaddr : Nat) (r : Range) : List (Field × Nat) :=
  [(pType pht i, ptypeLoad), (pFlags pht i, pflagRead), (pOffset pht i, r.first),
    (pPa pht i, loadaddr), (pVa pht i, loadaddr), (pFilesz pht i, r.size), (pMemsz pht i, r.size),
    (pAlign pht i, pageSize)]

/-- A program header for the tables is put at the end of its table. -/
def insertProgram (e : ElfInfo) (i loadaddr : Nat) (r : Range) : Except Stop ElfInfo := do
  let phnum ← e.get ePhnum
  let e ← e.moveBytes (program e.pht (i + 1)) (program e.pht i) ((phnum - i) * sizeofProgram)
  let e ← e.store ePhnum ((phnum + 1) % 2 ^ 16)
  let e ← e.storeAll (newProgram e.pht i loadaddr r)
  .ok e.touched

/-- A program header is found or added. -/
def addProgram (e : ElfInfo) (r : Range) (loadaddr : Nat) : Except Stop ElfInfo := do
  let i ← e.findProgramFrom loadaddr 0 (← e.get ePhnum)
  if ← e.isProgram i loadaddr r then .ok e
  else if ← e.noRoom then .error (.exit ⟨.file, "unexpected program headers", []⟩)
  else e.insertProgram i loadaddr r

/-- What comes behind `rewrite_symtabref`. -/
def finish (e : ElfInfo) (i : Nat) (r : Range) (loadaddr : Nat) : Except Stop ElfInfo := do
  let e ← e.sortSymtab
  if loadaddr ≠ 0 then (← e.markSymtab i r loadaddr).addProgram r loadaddr else .ok e

/-- `main` with the file in the buffer. -/
def edit (e : ElfInfo) (o : Options) (budget : Nat) : Option (Except Halt ElfInfo) :=
  andThen (some (orHalt e.accept)) fun e =>
    andThen (some (orHalt e.symtabSection)) fun i =>
      andThen ((e.alignSymtab i budget).map orHalt) fun e =>
        andThen (some (orHalt (e.range i))) fun r =>
          andThen (e.rewriteSymtabref ⟨o.name, r.strtabOff, r.size⟩ o.loadaddr budget)
            fun (nfound, loadaddr, e) =>
              if nfound = 0 ∧ o.nameSet then
                some (.error (.stop (.exit ⟨.name o.name.bytes, "no symbol found", []⟩)))
              else some (orHalt (e.finish i r loadaddr))

end ElfInfo

/-! ## The file -/

namespace Buffer

/-- The bytes that are written out. -/
def contents (b : Buffer) : List UInt8 := (List.range b.size).map b.data

/-- What is in the file that is written, when the program has succeeded on the file
    `b`: an input file to which nothing was done is left alone. -/
def written (b : Buffer) (o : Options) (e : ElfInfo) : List UInt8 :=
  if e.changed = false ∧ o.inPlace then b.contents else e.contents

/-- `main`. -/
def mkchickadeesymtab (b : Buffer) (o : Options) (budget : Nat) :
    Option (Except Halt (List UInt8)) :=
  (b.load.edit o budget).map fun r => r.map (b.written o)

end Buffer

end ElfFile
