import Cs61.ElfShift

/-! # `rewrite_symtabref`

    Every `OBJECT` symbol with a given name stands for an `elf_symtabref` of 32
    bytes in its section, and is filled in.  A symbol of another size, or one
    whose bytes do not seem to be in its section, ends the program; that test is
    one comparison of 64-bit numbers, and `Misjudged` says when it is wrong
    (`misjudged_iff`). -/

namespace ElfFile

open ByteFiles Checks LoopRules

/-! ## The functions -/

/-- `ELF_STT_MASK`. -/
def sttMask : Nat := 0x0F
/-- `ELF_STT_OBJECT`. -/
def sttObject : Nat := 1
/-- `ELF_SHT_PROGBITS`. -/
def shtProgbits : Nat := 1
/-- `sizeof(elf_symtabref)`. -/
def sizeofSymtabref : Nat := 32

/-- `sh_addr`: where the section is in memory. -/
def shAddr (sht i : Nat) : Field := ⟨sect sht i + 16, 8⟩

/-- `st_info`. -/
def stInfo (sym j : Nat) : Field := ⟨sym + sizeofSymbol * j + 4, 1⟩
/-- `st_shndx`: the section that the symbol refers to. -/
def stShndx (sym j : Nat) : Field := ⟨sym + sizeofSymbol * j + 6, 2⟩
/-- `st_value`. -/
def stValue (sym j : Nat) : Field := ⟨sym + sizeofSymbol * j + 8, 8⟩
/-- `st_size`. -/
def stSize (sym j : Nat) : Field := ⟨sym + sizeofSymbol * j + 16, 8⟩

/-- What does not change in a call. -/
structure Request where
  name : CString
  strtabOff : Nat
  size : Nat

/-- The four words of an `elf_symtabref`, as one number. -/
def Request.record (q : Request) (loadaddr nsymtab : Nat) : Nat :=
  loadaddr + 2 ^ 64 * (nsymtab + 2 ^ 64 * ((loadaddr + q.strtabOff) % 2 ^ 64 + 2 ^ 64 * q.size))

/-- How the program ends.  The second line about a bad reference is read from the
    file when the first is printed already. -/
inductive Halt where
  | stop (s : Stop)
  | badSize (j value size : Nat)
  | badReference (j value : Nat) (addresses : Except Stop (List UInt8 × Nat × Nat))

/-- The symbol because of which the program exits. -/
def Halt.about : Halt → Option Nat
  | .stop _ => none
  | .badSize j _ _ => some j
  | .badReference j _ _ => some j

/-- A part of the program whose errors end it. -/
def orHalt {α : Type} (x : Except Stop α) : Except Halt α := x.mapError .stop

theorem orHalt_bind {α β : Type} {x : Except Stop α} {a : α} (h : x = .ok a)
    (f : α → Except Halt β) : (orHalt x >>= f) = f a := by
  rw [h]
  rfl

/-- `loadaddr`, `nfound` and `sym` in the loop. -/
structure Rewrite where
  file : ElfInfo
  loadaddr : Nat
  nfound : Nat
  sym : Option Nat

namespace ElfInfo

/-- The symbol is an object of the name that is looked for. -/
def isObject (e : ElfInfo) (c : SymtabCache) (j : Nat) : Except Stop Bool :=
  both (e.test (stInfo c.symtab j) fun info => info &&& sttMask = sttObject) do
    let shndx ← e.get (stShndx c.symtab j)
    e.test eShnum (shndx < ·)

/-- The symbol is no record in a section with contents. -/
def badReference (e : ElfInfo) (k value : Nat) : Except Stop Bool :=
  either (e.test (shType e.sht k) (· ≠ shtProgbits)) <|
    either (e.test (shAddr e.sht k) (value < ·)) do
      let addr ← e.get (shAddr e.sht k)
      e.test (shSize e.sht k) fun size => value ≥ (addr + size + (2 ^ 64 - sizeofSymtabref)) % 2 ^ 64

/-- The name and the addresses of a section, as they are printed. -/
def addresses (e : ElfInfo) (k : Nat) : Except Stop (List UInt8 × Nat × Nat) := do
  let name ← e.string ((← e.namesAt) + (← e.get (shName e.sht k)))
  let addr ← e.get (shAddr e.sht k)
  let size ← e.get (shSize e.sht k)
  .ok (name, addr, (addr + size) % 2 ^ 64)

/-- `stref_off`, behind the two checks. -/
def strefOff (e : ElfInfo) (c : SymtabCache) (j : Nat) : Except Halt Nat := do
  let size ← orHalt (e.get (stSize c.symtab j))
  let value ← orHalt (e.get (stValue c.symtab j))
  if size ≠ sizeofSymtabref then .error (.badSize j value size) else
    let k ← orHalt (e.get (stShndx c.symtab j))
    if ← orHalt (e.badReference k value) then .error (.badReference j value (e.addresses k)) else
      let offset ← orHalt (e.get (shOffset e.sht k))
      let addr ← orHalt (e.get (shAddr e.sht k))
      .ok ((offset + (value - addr)) % 2 ^ 64)

end ElfInfo

namespace Rewrite

/-- Without an address for the table, the first record holds it. -/
def loadaddrAt (s : Rewrite) (off : Nat) : Except Stop Nat :=
  if s.loadaddr = 0 then s.file.get ⟨off, 8⟩ else .ok s.loadaddr

/-- A record is written if it is another one than stands there. -/
def fillOut (q : Request) (c : SymtabCache) (s : Rewrite) (off : Nat) : Except Stop Rewrite := do
  let loadaddr ← s.loadaddrAt off
  let record := q.record loadaddr c.nsymtab
  let stref ← s.file.get ⟨off, sizeofSymtabref⟩
  .ok { s with
    file := if stref = record then s.file
      else { s.file.set ⟨off, sizeofSymtabref⟩ record with changed := true }
    loadaddr := loadaddr
    nfound := (s.nfound + 1) % 2 ^ 32 }

/-- What a pass does with a symbol; one was found, so there is a cache. -/
def visit (q : Request) (s : Rewrite) (j : Nat) : Except Halt Rewrite := do
  let c := s.file.cache.getD ⟨0, 0, 0⟩
  if ← orHalt (s.file.isObject c j) then
    let off ← s.file.strefOff c j
    orHalt (s.fillOut q c off)
  else .ok s

/-- One pass of the loop. -/
def pass (q : Request) (s : Rewrite) : Except Halt (Turn Rewrite (Nat × Nat × ElfInfo)) :=
  match s.sym with
  | none => .ok (.leave (s.nfound, s.loadaddr, s.file))
  | some j => do
      let s ← s.visit q j
      let (sym, e) ← orHalt (s.file.findSymbol q.name (some j))
      .ok (.again { s with file := e, sym := sym })

/-- A pass, and an end of the loop where the program exits. -/
def body (q : Request) (s : Rewrite) : Turn Rewrite (Except Halt (Nat × Nat × ElfInfo)) :=
  match s.pass q with
  | .error h => .leave (.error h)
  | .ok (.again s) => .again s
  | .ok (.leave r) => .leave (.ok r)

end Rewrite

/-- `rewrite_symtabref`: the number of records, `loadaddr` and the file. -/
def ElfInfo.rewriteSymtabref (e : ElfInfo) (q : Request) (loadaddr budget : Nat) :
    Option (Except Halt (Nat × Nat × ElfInfo)) :=
  match e.findSymbol q.name none with
  | .error s => some (.error (.stop s))
  | .ok (sym, e) => run (Rewrite.body q) budget ⟨e, loadaddr, 0, sym⟩

/-! ## The symbols of a file -/

/-- A string and its terminator. -/
def stringAt (d : Bytes) : Nat → List UInt8 → Bool
  | p, [] => d p = 0
  | p, c :: s => d p = c && stringAt d (p + 1) s

namespace Buffer

/-- The symbol table of a section. -/
def tableOf (b : Buffer) (i : Nat) : SymtabCache :=
  ⟨b.val (shOffset b.shoff i), b.val (shSize b.shoff i) / sizeofSymbol,
    b.val (shOffset b.shoff (b.val (shLink b.shoff i)))⟩

/-- The section named `.symtab`, if it is a symbol table. -/
def symbols (b : Buffer) : SymtabCache :=
  match b.accepted.findSection ElfInfo.symtabName with
  | .ok i => if i ≠ 0 ∧ b.val (shType b.shoff i) = shtSymtab then b.tableOf i else ⟨0, 0, 0⟩
  | .error _ => ⟨0, 0, 0⟩

end Buffer

section Symbols

variable (b : Buffer) (t : SymtabCache) (name : CString) (j : Nat)

/-- Where the name of a symbol is. -/
def nameOf : Nat := t.symstrtab + b.val (stName t.symtab j)

/-- The section of a symbol. -/
def sectionOf : Nat := b.val (stShndx t.symtab j)

/-- `st_value` of the symbol. -/
def valueOf : Nat := b.val (stValue t.symtab j)

/-- The addresses of the section. -/
def addrOf : Nat := b.val (shAddr b.shoff (sectionOf b t j))
/-- How many bytes the section has that it refers to. -/
def bytesOf : Nat := b.val (shSize b.shoff (sectionOf b t j))

/-- Where the record of the symbol is in the file. -/
def place : Nat := b.val (shOffset b.shoff (sectionOf b t j)) + (valueOf b t j - addrOf b t j)

/-- The symbol has the name. -/
def Named : Prop := stringAt b.data (nameOf b t j) name.bytes = true

/-- An `OBJECT` symbol with a section. -/
def Defines : Prop :=
  b.val (stInfo t.symtab j) &&& sttMask = sttObject ∧ sectionOf b t j < b.shnum

/-- A symbol that the program is about. -/
def Object : Prop := j < t.nsymtab ∧ Named b t name j ∧ Defines b t j

/-- A record in a `PROGBITS` section. -/
def Record : Prop :=
  b.val (stSize t.symtab j) = sizeofSymtabref
    ∧ b.val (shType b.shoff (sectionOf b t j)) = shtProgbits

/-- All its bytes are in the section. -/
def Inside : Prop :=
  Record b t j ∧ addrOf b t j ≤ valueOf b t j
    ∧ valueOf b t j + sizeofSymtabref ≤ addrOf b t j + bytesOf b t j

/-- What the program takes for one. -/
def Accepted : Prop :=
  Record b t j ∧ addrOf b t j ≤ valueOf b t j
    ∧ valueOf b t j < (addrOf b t j + bytesOf b t j + (2 ^ 64 - sizeofSymtabref)) % 2 ^ 64

/-- The last place of a section; a section whose end is not an address; one whose
    end has no 32 bytes before it. -/
def Misjudged : Prop :=
  Record b t j ∧ addrOf b t j ≤ valueOf b t j
    ∧ (valueOf b t j + sizeofSymtabref = addrOf b t j + bytesOf b t j
      ∨ (2 ^ 64 + sizeofSymtabref ≤ addrOf b t j + bytesOf b t j
        ∧ valueOf b t j + sizeofSymtabref ≤ addrOf b t j + bytesOf b t j)
      ∨ (addrOf b t j + bytesOf b t j < sizeofSymtabref
        ∧ valueOf b t j + sizeofSymtabref < 2 ^ 64 + (addrOf b t j + bytesOf b t j)))

instance : Decidable (Named b t name j) := inferInstanceAs (Decidable (_ = _))
instance : Decidable (Defines b t j) := inferInstanceAs (Decidable (_ ∧ _))
instance : Decidable (Object b t name j) := inferInstanceAs (Decidable (_ ∧ _ ∧ _))
instance : Decidable (Record b t j) := inferInstanceAs (Decidable (_ ∧ _))
instance : Decidable (Inside b t j) := inferInstanceAs (Decidable (_ ∧ _ ∧ _))
instance : Decidable (Accepted b t j) := inferInstanceAs (Decidable (_ ∧ _ ∧ _))
instance : Decidable (Misjudged b t j) := inferInstanceAs (Decidable (_ ∧ _ ∧ (_ ∨ _ ∧ _ ∨ _ ∧ _)))

/-- No symbol before it ends the program. -/
def Due : Prop := ∀ i, i < j → Object b t name i → Inside b t i

/-- The first symbol that is to end the program. -/
def FirstBad : Prop := Object b t name j ∧ ¬ Inside b t j ∧ Due b t name j

end Symbols

/-- **THE TEST** of the program is wrong in these cases, and in no others. -/
theorem misjudged_iff (b : Buffer) (t : SymtabCache) (j : Nat) :
    Misjudged b t j ↔ ¬ (Accepted b t j ↔ Inside b t j) := by
  have hvalue : valueOf b t j < 2 ^ 64 := num_lt b.data _ 8
  have haddr : addrOf b t j < 2 ^ 64 := num_lt b.data _ 8
  have hbytes : bytesOf b t j < 2 ^ 64 := num_lt b.data _ 8
  simp only [Misjudged, Accepted, Inside, sizeofSymtabref]
  by_cases hrecord : Record b t j
  · simp only [hrecord, true_and]
    omega
  · simp only [hrecord, false_and, not_true_eq_false]

/-! ## Records that are filled in -/

/-- The file while records are filled in. -/
structure Filled where
  data : Bytes
  changed : Bool
  loadaddr : Nat
  count : Nat

/-- The address of the table; the first record may hold it. -/
def Filled.addrAt (x : Filled) (off : Nat) : Nat :=
  if x.loadaddr = 0 then num x.data off 8 else x.loadaddr

/-- One more record. -/
def Filled.add (q : Request) (nsymtab : Nat) (x : Filled) (off : Nat) : Filled :=
  let record := q.record (x.addrAt off) nsymtab
  { data := put x.data off sizeofSymtabref record
    changed := x.changed || num x.data off sizeofSymtabref ≠ record
    loadaddr := x.addrAt off
    count := x.count + 1 }

/-- What `nsymtab_` counts of a table. -/
def SymtabCache.known (t : SymtabCache) : SymtabCache := { t with nsymtab := t.nsymtab % 2 ^ 32 }

/-- A symbol that is to be filled in. -/
def Good (b : Buffer) (t : SymtabCache) (name : CString) (j : Nat) : Prop :=
  Object b t name j ∧ Inside b t j

instance (b : Buffer) (t : SymtabCache) (name : CString) (j : Nat) : Decidable (Good b t name j) :=
  inferInstanceAs (Decidable (_ ∧ _))

/-- The records of the symbols before `m`. -/
def filled (b : Buffer) (t : SymtabCache) (q : Request) (loadaddr : Nat) : Nat → Filled
  | 0 => ⟨b.data, false, loadaddr, 0⟩
  | m + 1 =>
      if Good b t q.name m then
        (filled b t q loadaddr m).add q t.known.nsymtab (place b t m)
      else filled b t q loadaddr m

/-- A byte of a string or its terminator. -/
def InString (d : Bytes) (start p : Nat) : Prop := start ≤ p ∧ ∀ q, start ≤ q → q < p → d q ≠ 0

/-- What the program reads of a symbol: its entry, its name, and the number of the
    sections and the header of its own. -/
def Reads (b : Buffer) (t : SymtabCache) (j p : Nat) : Prop :=
  (eShnum.off ≤ p ∧ p < eShnum.off + eShnum.bytes)
    ∨ ((stName t.symtab j).off ≤ p ∧ p < (stName t.symtab j).off + sizeofSymbol)
    ∨ InString b.data (nameOf b t j) p
    ∨ (sectionOf b t j < b.shnum ∧ sect b.shoff (sectionOf b t j) ≤ p
      ∧ p < sect b.shoff (sectionOf b t j) + sizeofSection)

/-- The symbol still reads as in the file. -/
def Agrees (b : Buffer) (t : SymtabCache) (d : Bytes) (j : Nat) : Prop :=
  ∀ p, Reads b t j p → d p = b.data p

/-- So does every symbol when its turn comes. -/
def Kept (b : Buffer) (t : SymtabCache) (q : Request) (loadaddr : Nat) : Prop :=
  ∀ j, j < t.nsymtab → Due b t q.name j → Agrees b t (filled b t q loadaddr j).data j

/-- No record lies over what is read of a later symbol. -/
def Untouched (b : Buffer) (t : SymtabCache) (name : CString) : Prop :=
  ∀ i j, i < j → j < t.nsymtab → Good b t name i → Due b t name j →
    ∀ p, Reads b t j p → p < place b t i ∨ place b t i + sizeofSymtabref ≤ p

/-! ## One symbol -/

/-- A file with a symbol table, in which records may have been filled in. -/
structure Prepared (b : Buffer) (t : SymtabCache) (e : ElfInfo) : Prop where
  valid : Valid b
  size : e.size = b.size
  sht : e.sht = b.shoff
  cache : e.cache = some t.known
  table : ∃ k, k < b.shnum ∧ b.val (shType b.shoff k) = shtSymtab ∧ t = b.tableOf k

section OneSymbol

variable {b : Buffer} {t c : SymtabCache} {e : ElfInfo} {q : Request} {name : CString} {j : Nat}
  {x : Field}

/-- The entry and the name of a symbol are in the file. -/
theorem Prepared.symbol_inside (h : Prepared b t e) (hj : j < t.nsymtab) :
    (stName t.symtab j).off + sizeofSymbol ≤ b.size ∧ Terminated b (nameOf b t j) := by
  obtain ⟨k, hk, hsym, rfl⟩ := h.table
  exact h.valid.symbol_terminated hk hsym hj

/-- A field that is read of the symbol. -/
theorem get_agrees (h : Agrees b t e.data j) (hx : ∀ k, k < x.bytes → Reads b t j (x.off + k))
    (hsize : e.size = b.size) (hin : x.off + x.bytes ≤ b.size) : e.get x = .ok (b.val x) := by
  have hval : e.val x = b.val x := num_congr fun k hk => h _ (hx k hk)
  rw [Buffer.get_ok (hsize ▸ hin), hval]

/-- What was read of a string agrees on what is left of it. -/
theorem InString.tail {p r : Nat} (h : InString b.data (p + 1) r) (hp : b.data p ≠ 0) :
    InString b.data p r := by
  refine ⟨Nat.le_trans (Nat.le_succ p) h.1, fun u hpu hur => ?_⟩
  rcases Nat.eq_or_lt_of_le hpu with rfl | hlt
  · exact hp
  · exact h.2 u hlt hur

theorem InString.head (p : Nat) : InString b.data p p :=
  ⟨Nat.le_refl p, fun _ hpu hup => absurd hup (Nat.not_lt.mpr hpu)⟩

/-- The name is compared as it stands in the file. -/
theorem sameString_agrees {s : List UInt8} {p : Nat}
    (h : ∀ r, InString b.data p r → e.data r = b.data r) (hs : ∀ c ∈ s, c ≠ 0)
    (hend : Terminated b p) (hsize : e.size = b.size) :
    e.sameString p s = .ok (stringAt b.data p s) := by
  obtain ⟨r, hpr, hr, hzero⟩ := hend
  induction s generalizing p with
  | nil =>
      rw [ElfInfo.sameString, Buffer.char_ok (by omega), h p (InString.head p)]
      rfl
  | cons c s ih =>
      rw [ElfInfo.sameString, Buffer.char_ok (by omega), h p (InString.head p), stringAt]
      show (if b.data p = c then _ else _) = _
      by_cases hc : b.data p = c
      · have hp : b.data p ≠ 0 := hc ▸ hs c List.mem_cons_self
        have hne : p ≠ r := fun heq => hp (heq ▸ hzero)
        have hrest := ih (fun u hu => h u (hu.tail hp))
          (fun c' hc' => hs c' (List.mem_cons_of_mem c hc')) (by omega)
        rw [if_pos hc, hrest, decide_eq_true hc, Bool.true_and]
      · rw [if_neg hc, decide_eq_false hc, Bool.false_and]

section Agreeing

variable (h : Prepared b t e) (hagrees : Agrees b t e.data j)

include h hagrees

/-- A field of the section. -/
theorem get_section (hk : sectionOf b t j < b.shnum)
    (hx : sect b.shoff (sectionOf b t j) ≤ x.off)
    (hx' : x.off + x.bytes ≤ sect b.shoff (sectionOf b t j) + sizeofSection) :
    e.get x = .ok (b.val x) := by
  have hin := h.valid.header.section_inside hk
  refine get_agrees hagrees (fun k hkx => Or.inr (Or.inr (Or.inr ⟨hk, ?_⟩))) h.size (by omega)
  omega

/-- The test of a reference. -/
theorem badReference_decides (hk : sectionOf b t j < b.shnum) :
    Decides (e.badReference (sectionOf b t j) (valueOf b t j))
      (b.val (shType b.shoff (sectionOf b t j)) ≠ shtProgbits
        ∨ valueOf b t j < addrOf b t j
        ∨ (addrOf b t j + bytesOf b t j + (2 ^ 64 - sizeofSymtabref)) % 2 ^ 64
          ≤ valueOf b t j) := by
  have htype : e.get (shType b.shoff (sectionOf b t j))
      = .ok (b.val (shType b.shoff (sectionOf b t j))) :=
    get_section h hagrees hk (by simp only [shType]; omega)
      (by simp only [shType, sizeofSection]; omega)
  have haddr : e.get (shAddr b.shoff (sectionOf b t j)) = .ok (addrOf b t j) :=
    get_section h hagrees hk (by simp only [shAddr]; omega)
      (by simp only [shAddr, sizeofSection]; omega)
  have hbytes : e.get (shSize b.shoff (sectionOf b t j)) = .ok (bytesOf b t j) :=
    get_section h hagrees hk (by simp only [shSize]; omega)
      (by simp only [shSize, sizeofSection]; omega)
  rw [ElfInfo.badReference, h.sht, Buffer.test, Buffer.test, htype, haddr]
  refine Decides.either (Decides.ok decide_eq_true_iff) fun _ => ?_
  refine Decides.either (Decides.ok decide_eq_true_iff) fun _ => ?_
  show Decides (e.test _ _) _
  rw [Buffer.test, hbytes]
  exact Decides.ok decide_eq_true_iff

variable (hj : j < t.nsymtab)

include hj

/-- A field of the entry. -/
theorem get_entry (hx : (stName t.symtab j).off ≤ x.off)
    (hx' : x.off + x.bytes ≤ (stName t.symtab j).off + sizeofSymbol) :
    e.get x = .ok (b.val x) := by
  have hin := (h.symbol_inside hj).1
  refine get_agrees hagrees (fun k hk => Or.inr (Or.inl ?_)) h.size (by omega)
  omega

/-- The test of a symbol's name. -/
theorem named_decides : e.sameString (nameOf b t j) name.bytes
    = .ok (decide (Named b t name j)) := by
  have hname := sameString_agrees (fun r hr => hagrees r (Or.inr (Or.inr (Or.inl hr))))
    name.nulFree (h.symbol_inside hj).2 h.size
  show e.sameString _ _ = .ok (decide (stringAt b.data (nameOf b t j) name.bytes = true))
  rw [hname, Bool.decide_eq_true]

/-- The test of a symbol's type and name. -/
theorem isObject_eq (hc : c.symtab = t.symtab) :
    e.isObject c j = .ok (decide (Defines b t j)) := by
  have hinfo : e.get (stInfo t.symtab j) = .ok (b.val (stInfo t.symtab j)) :=
    get_entry h hagrees hj (by simp only [stName, stInfo]; omega)
      (by simp only [stName, stInfo, sizeofSymbol]; omega)
  have hndx : e.get (stShndx t.symtab j) = .ok (sectionOf b t j) :=
    get_entry h hagrees hj (by simp only [stName, stShndx]; omega)
      (by simp only [stName, stShndx, sizeofSymbol]; omega)
  have hshnum : e.get eShnum = .ok b.shnum :=
    get_agrees hagrees (fun k hk => Or.inl ⟨by omega, by omega⟩) h.size
      (h.valid.header.inside eShnum (by decide))
  rw [ElfInfo.isObject, hc, Buffer.test, hinfo, hndx]
  show both (.ok (decide _)) (e.test eShnum _) = _
  rw [Buffer.test, hshnum]
  show (if decide _ = true then _ else _) = _
  by_cases hobject : b.val (stInfo t.symtab j) &&& sttMask = sttObject
  · rw [if_pos (decide_eq_true hobject)]
    show Except.ok (decide _) = Except.ok (decide _)
    congr 1
    exact decide_eq_decide.mpr (and_iff_right hobject).symm
  · rw [if_neg (by rwa [decide_eq_true_iff])]
    congr 1
    exact (decide_eq_false fun hdefines => hobject hdefines.1).symm

/-- Where the record of a symbol that is accepted is looked for; one that is not
    accepted ends the program. -/
theorem strefOff_cases (hdefines : Defines b t j) (hc : c.symtab = t.symtab) :
    (Accepted b t j ∧ e.strefOff c j = .ok (place b t j % 2 ^ 64))
      ∨ (¬ Accepted b t j ∧ ∃ halt, e.strefOff c j = .error halt ∧ halt.about = some j) := by
  have hk := hdefines.2
  -- everything that is read lies in the file
  have hsize : e.get (stSize t.symtab j) = .ok (b.val (stSize t.symtab j)) :=
    get_entry h hagrees hj (by simp only [stName, stSize]; omega)
      (by simp only [stName, stSize, sizeofSymbol]; omega)
  have hvalue : e.get (stValue t.symtab j) = .ok (valueOf b t j) :=
    get_entry h hagrees hj (by simp only [stName, stValue]; omega)
      (by simp only [stName, stValue, sizeofSymbol]; omega)
  have hndx : e.get (stShndx t.symtab j) = .ok (sectionOf b t j) :=
    get_entry h hagrees hj (by simp only [stName, stShndx]; omega)
      (by simp only [stName, stShndx, sizeofSymbol]; omega)
  have hoffset : e.get (shOffset b.shoff (sectionOf b t j))
      = .ok (b.val (shOffset b.shoff (sectionOf b t j))) :=
    get_section h hagrees hk (by simp only [shOffset]; omega)
      (by simp only [shOffset, sizeofSection]; omega)
  have haddr : e.get (shAddr b.shoff (sectionOf b t j)) = .ok (addrOf b t j) :=
    get_section h hagrees hk (by simp only [shAddr]; omega)
      (by simp only [shAddr, sizeofSection]; omega)
  obtain ⟨bad, hbad, htest⟩ := badReference_decides h hagrees hk
  have hread : e.strefOff c j
      = if b.val (stSize t.symtab j) ≠ sizeofSymtabref then
          .error (.badSize j (valueOf b t j) (b.val (stSize t.symtab j)))
        else if bad then
          .error (.badReference j (valueOf b t j) (e.addresses (sectionOf b t j)))
        else .ok (place b t j % 2 ^ 64) := by
    rw [ElfInfo.strefOff, hc, h.sht, orHalt_bind hsize, orHalt_bind hvalue, orHalt_bind hndx,
      orHalt_bind hbad, orHalt_bind hoffset, orHalt_bind haddr, place]
  -- by the size of the record, and then by the section it is in
  rw [hread]
  by_cases hrecord : b.val (stSize t.symtab j) = sizeofSymtabref
  · rw [if_neg (not_not.mpr hrecord)]
    cases bad with
    | true =>
        refine Or.inr ⟨fun haccepted => ?_, _, rfl, rfl⟩
        obtain ⟨⟨-, hprogbits⟩, hfrom, hbefore⟩ := haccepted
        rcases htest.mp rfl with hne | hlt | hle
        · exact hne hprogbits
        · exact Nat.not_lt.mpr hfrom hlt
        · exact Nat.not_le.mpr hbefore hle
    | false =>
        have hgood := not_or.mp fun hbad => Bool.false_ne_true (htest.mpr hbad)
        obtain ⟨hprogbits, hbounds⟩ := hgood
        obtain ⟨hfrom, hbefore⟩ := not_or.mp hbounds
        exact Or.inl ⟨⟨⟨hrecord, not_not.mp hprogbits⟩, Nat.not_lt.mp hfrom,
          Nat.not_le.mp hbefore⟩, rfl⟩
  · rw [if_pos hrecord]
    exact Or.inr ⟨fun haccepted => hrecord haccepted.1.1, _, rfl, rfl⟩

end Agreeing

/-- The record of a good symbol is in its section, in the file. -/
theorem place_inside (h : Prepared b t e) (hdefines : Defines b t j) (hin : Inside b t j) :
    place b t j + sizeofSymtabref
        ≤ b.val (shOffset b.shoff (sectionOf b t j)) + bytesOf b t j
      ∧ b.val (shOffset b.shoff (sectionOf b t j)) + bytesOf b t j ≤ b.size := by
  obtain ⟨⟨-, hprogbits⟩, hfrom, hupto⟩ := hin
  obtain ⟨hoffset, hsize⟩ := (h.valid.sections _ hdefines.2).range (hprogbits ▸ by decide)
    (hprogbits ▸ by decide)
  rw [place]
  have hsize : bytesOf b t j ≤ b.size - b.val (shOffset b.shoff (sectionOf b t j)) := hsize
  omega

end OneSymbol

end ElfFile
