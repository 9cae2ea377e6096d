import Cs61.ElfMarked

/-! # Files as a linker lays them out

    What the program is meant for: a file whose parts are apart, with the string
    table of the symbols behind them, at most one record of their address, and
    room for them above that address (`Linkable`).  Parts that are moved without
    being changed leave such a file (`Moves`). -/

namespace ElfFile

open ByteFiles Checks

variable {b b' : Buffer} {o : Options} {name : CString} {i j k p given a : Nat}

/-! ## The record of the symbols -/

/-- The 32 bytes of the record are in its section. -/
def Housed (b : Buffer) (t : SymtabCache) (j : Nat) : Prop :=
  b.val (shType b.shoff (sectionOf b t j)) = shtProgbits ∧ addrOf b t j ≤ valueOf b t j
    ∧ valueOf b t j + sizeofSymtabref ≤ addrOf b t j + bytesOf b t j

instance (b : Buffer) (t : SymtabCache) (j : Nat) : Decidable (Housed b t j) :=
  inferInstanceAs (Decidable (_ ∧ _ ∧ _))

/-- At most one symbol has the name, and its record is in its section. -/
structure Referenced (b : Buffer) (name : CString) : Prop where
  once : ∀ i j, Object b b.table name i → Object b b.table name j → i = j
  housed : ∀ j, Object b b.table name j → Housed b b.table j

/-- A housed record of the right size. -/
theorem Housed.inside {t : SymtabCache} (h : Housed b t j) (hrecord : Record b t j) :
    Inside b t j :=
  ⟨hrecord, h.2⟩

/-! ## The whole file -/

/-- How many bytes the two tables of the symbols take. -/
def Buffer.tableSize (b : Buffer) : Nat :=
  b.table.symstrtab + b.val (shSize b.shoff (b.val (shLink b.shoff b.symtabNdx))) - b.table.symtab

/-- A file as a linker lays it out, for these options: its parts are apart, the
    symbol table is not empty and its string table comes behind it, one more
    program header can be counted, at most one record is asked for, and the tables
    end below 2^64 at their address. -/
structure Linkable (b : Buffer) (o : Options) : Prop where
  laidOut : LaidOut b
  nonempty : b.val (shSize b.shoff b.symtabNdx) ≠ 0
  followed : b.table.symtab + b.val (shSize b.shoff b.symtabNdx) ≤ b.table.symstrtab
  phnum : b.phnum < 65535
  referenced : Referenced b o.name
  address : ∀ a, LoadAddress b o.name o.loadaddr a → a + b.tableSize < 2 ^ 64

/-- `b'` is `b` with its parts elsewhere. -/
structure Moves (b b' : Buffer) : Prop extends Refiled b b' where
  laidOut : LaidOut b'
  phnum : b'.phnum = b.phnum
  records : ∀ i, i < b.shnum → b.val (shType b.shoff i) = shtProgbits →
    ∀ k, k < b.val (shSize b.shoff i) →
      b'.data (b'.val (shOffset b'.shoff i) + k) = b.data (b.val (shOffset b.shoff i) + k)
  strings : b.table.symtab ≤ b.table.symstrtab →
    ∃ d, b'.table.symtab = b.table.symtab + d ∧ b'.table.symstrtab = b.table.symstrtab + d

namespace Refiled

variable {σ : Nat → Nat} (h : Refiled b b') (hv : Valid b) (hsym : b.HasSymtab)

include h hv hsym

/-- A record stays in its section. -/
theorem housed (hσ : Shuffled b b' σ) (hj : j < b.table.nsymtab)
    (hk : sectionOf b b.table (σ j) < b.shnum) (hhoused : Housed b b.table (σ j)) :
    Housed b' b'.table j := by
  obtain ⟨haddr, hbytes⟩ := h.section_eq hv hsym hσ hj hk hhoused.1
  rw [Housed, h.sectionOf_eq hv hsym hσ hj, h.type hk, haddr, hbytes,
    h.valueOf_eq hv hsym hσ hj]
  exact hhoused

/-- The symbol with the name is still the only one. -/
theorem referenced (href : Referenced b name) : Referenced b' name := by
  obtain ⟨σ, hσ⟩ := h.symbols
  refine ⟨fun i j hi hj => ?_, fun j hobject => ?_⟩
  · obtain ⟨hi, hi'⟩ := (h.object_iff hv hsym hσ).mp hi
    obtain ⟨hj, hj'⟩ := (h.object_iff hv hsym hσ).mp hj
    exact hσ.known.injOn hi hj (href.once _ _ hi' hj')
  · obtain ⟨hj, hold⟩ := (h.object_iff hv hsym hσ).mp hobject
    exact h.housed hv hsym hσ hj hold.2.2.2 (href.housed _ hold)

end Refiled

namespace Moves

variable (h : Moves b b') (hv : Valid b) (hsym : b.HasSymtab)

include h hv hsym

/-- A record is where its section was moved to. -/
theorem num_record {σ : Nat → Nat} (hσ : Shuffled b b' σ) (hj : j < b.table.nsymtab)
    (hk : sectionOf b b.table (σ j) < b.shnum) (hhoused : Housed b b.table (σ j)) :
    num b'.data (place b' b'.table j) 8 = num b.data (place b b.table (σ j)) 8 := by
  obtain ⟨hprogbits, hfrom, hupto⟩ := hhoused
  obtain ⟨haddr, -⟩ := h.section_eq hv hsym hσ hj hk hprogbits
  rw [place, place, h.sectionOf_eq hv hsym hσ hj, h.valueOf_eq hv hsym hσ hj, haddr]
  refine num_congr fun n hn => ?_
  rw [Nat.add_assoc, Nat.add_assoc]
  refine h.records _ hk hprogbits _ ?_
  simp only [sizeofSymtabref, bytesOf] at hupto
  omega

/-- The address is the one that is read in the file before. -/
theorem loadAddress (href : Referenced b name) (ha : LoadAddress b' name given a) :
    LoadAddress b name given a := by
  obtain ⟨σ, hσ⟩ := h.symbols
  rw [LoadAddress] at ha ⊢
  split_ifs at ha ⊢ with hgiven
  · exact ha
  obtain ⟨hread, hnone⟩ := ha
  refine ⟨fun j hobject => ?_, fun hno => hnone fun j hobject => ?_⟩
  · -- every symbol of `b` stands somewhere in the table of `b'`
    obtain ⟨i, hi, rfl⟩ := hσ.known.surjOn hobject.1
    rw [hread i ((h.object_iff hv hsym hσ).mpr ⟨hi, hobject⟩)]
    exact h.num_record hv hsym hσ hi hobject.2.2.2 (href.housed _ hobject)
  · exact hno _ ((h.object_iff hv hsym hσ).mp hobject).2

/-- **A LINKABLE FILE** whose parts are moved is one. -/
theorem linkable (hb : Linkable b o) : Linkable b' o := by
  have hlt := Buffer.symtabNdx_lt hv
  obtain ⟨hlink, -⟩ := (hv.sections _ hlt).link hsym.type
  have hndx := h.symtabNdx_eq hv hsym
  have hfollowed := hb.followed
  have hsize : b'.val (shSize b'.shoff b'.symtabNdx) = b.val (shSize b.shoff b.symtabNdx) := by
    rw [hndx, h.bytes hlt]
  obtain ⟨d, hsymtab, hstrings⟩ := h.strings (by omega)
  have htable : b'.tableSize = b.tableSize := by
    rw [Buffer.tableSize, Buffer.tableSize, hndx, h.link hlt, h.bytes hlink, hsymtab, hstrings]
    omega
  refine ⟨h.laidOut, ?_, ?_, ?_, h.referenced hv hsym hb.referenced, fun a ha => ?_⟩
  · rw [hsize]
    exact hb.nonempty
  · rw [hsize, hsymtab, hstrings]
    omega
  · rw [h.phnum]
    exact hb.phnum
  · rw [htable]
    exact hb.address a (h.loadAddress hv hsym hb.referenced ha)

end Moves

end ElfFile
