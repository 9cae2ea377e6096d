import Cs61.ElfLayout

/-! # Steps that move nothing

    Behind the alignment nothing is moved any more.  A step may then change
    records, the order of the symbols, flags and addresses of sections that hold
    no records, and the program headers; all other bytes are `Solid`.  Such a step
    leaves a file that is valid and laid out as before. -/

namespace ElfFile

open ByteFiles Checks

/-- A byte that no step changes in place. -/
inductive Solid (b : Buffer) : Nat → Prop where
  | header {p : Nat} : p < sizeofHeader → p < ePhnum.off ∨ ePhnum.off + 2 ≤ p → Solid b p
  | entry {i k : Nat} : i < b.shnum → k < 8 ∨ (24 ≤ k ∧ k < 48) → Solid b (sect b.shoff i + k)
  | address {i k : Nat} : i < b.shnum → b.val (shType b.shoff i) = shtProgbits → 16 ≤ k → k < 24 →
      Solid b (sect b.shoff i + k)
  | contents {i p : Nat} : Covers b (.contents i) p → b.val (shType b.shoff i) ≠ shtProgbits →
      i ≠ b.symtabNdx → Solid b p

/-- The entries of the symbol table in `b'` are those in `b`, at the same place. -/
structure Reordered (b b' : Buffer) (σ : Nat → Nat) : Prop where
  maps : ∀ j, j < (b.tableOf b.symtabNdx).nsymtab → σ j < (b.tableOf b.symtabNdx).nsymtab
  known : Set.BijOn σ (Set.Iio b.table.nsymtab) (Set.Iio b.table.nsymtab)
  bytes : ∀ j, j < (b.tableOf b.symtabNdx).nsymtab → ∀ k, k < sizeofSymbol →
    b'.data ((entryOf b.table.symtab j).off + k) = b.data ((entryOf b.table.symtab (σ j)).off + k)

/-- `b'` is `b` with other program headers, records and marks, and its symbols in
    another order. -/
structure InPlace (b b' : Buffer) : Prop where
  size : b'.size = b.size
  solid : ∀ p, Solid b p → b'.data p = b.data p
  programs : b'.phnum ≠ 0
  fits : program b.phoff b'.phnum ≤ b.size
  apart : ∀ p, b.phoff ≤ p → p < program b.phoff b'.phnum → ∀ r, Covers b r p → r = .programs
  symbols : ∃ σ, Reordered b b' σ

variable {b b' : Buffer} {i j k n p : Nat}

/-- An entry of the symbol table is in its section. -/
theorem covers_entry (hv : Valid b) (hsym : b.HasSymtab)
    (hj : j < (b.tableOf b.symtabNdx).nsymtab) (hk : k < sizeofSymbol) :
    Covers b (.contents b.symtabNdx) ((entryOf b.table.symtab j).off + k) := by
  refine ⟨Buffer.symtabNdx_lt hv, fileBacked_of_type hsym.type (by decide), ?_⟩
  have hall := Nat.div_mul_le_self (b.val (shSize b.shoff b.symtabNdx)) sizeofSymbol
  have hj : j < b.val (shSize b.shoff b.symtabNdx) / sizeofSymbol := hj
  have hupto := Nat.mul_le_mul_right sizeofSymbol (Nat.succ_le_of_lt hj)
  show b.val (shOffset b.shoff b.symtabNdx) ≤ b.val (shOffset b.shoff b.symtabNdx) + _ + k
    ∧ b.val (shOffset b.shoff b.symtabNdx) + sizeofSymbol * j + k < _
  simp only [sizeofSymbol] at hall hupto hk ⊢
  omega

/-- A table that is not touched. -/
theorem reordered_id (hv : Valid b) (hsym : b.HasSymtab)
    (h : ∀ p, Covers b (.contents b.symtabNdx) p → b'.data p = b.data p) : Reordered b b' id :=
  ⟨fun _ hj => hj, Set.bijOn_id _, fun _ hj _ hk => h _ (covers_entry hv hsym hj hk)⟩

/-- A step that changes another part of the file. -/
theorem reordered_apart (hv : Valid b) (hlaid : LaidOut b) (hsym : b.HasSymtab) {r : Region}
    (hr : r ≠ .contents b.symtabNdx) (hapart : ∀ p, ¬ Covers b r p → b'.data p = b.data p) :
    ∃ σ, Reordered b b' σ :=
  ⟨id, reordered_id hv hsym fun p hp => hapart p fun hcovers => hr (hlaid _ _ p hcovers hp)⟩

/-- A step that changes another part than the header. -/
theorem phnum_apart (hlaid : LaidOut b) {r : Region} (hr : r ≠ .header)
    (hapart : ∀ p, ¬ Covers b r p → b'.data p = b.data p) : b'.phnum = b.phnum := by
  refine num_congr fun i hi => hapart _ fun hcovers => ?_
  have hi : i < 2 := hi
  have hheader : Covers b .header (ePhnum.off + i) := by
    simp only [Covers, ePhnum, sizeofHeader]
    omega
  exact hr (hlaid _ _ _ hcovers hheader)

/-- Records and symbols are not solid. -/
theorem Solid.not_covered (hlaid : LaidOut b) (h : Solid b p) (hp : Covers b (.contents i) p) :
    b.val (shType b.shoff i) ≠ shtProgbits ∧ i ≠ b.symtabNdx := by
  cases h with
  | header hlt _ => exact Region.noConfusion (hlaid .header (.contents i) p hlt hp)
  | entry hj hk =>
      refine Region.noConfusion (hlaid .sections (.contents i) _ (LaidOut.covers_sect hj ?_) hp)
      simp only [sizeofSection]
      omega
  | address hj _ hk hk' =>
      refine Region.noConfusion (hlaid .sections (.contents i) _ (LaidOut.covers_sect hj ?_) hp)
      simp only [sizeofSection]
      omega
  | contents hj htype hndx =>
      obtain rfl := Region.contents.inj (hlaid _ _ p hj hp)
      exact ⟨htype, hndx⟩

namespace InPlace

/-- A step that leaves the number of program headers. -/
theorem of_solid (hv : Valid b) (hlaid : LaidOut b) (hsize : b'.size = b.size)
    (hsolid : ∀ p, Solid b p → b'.data p = b.data p) (hphnum : b'.phnum = b.phnum)
    (hsymbols : ∃ σ, Reordered b b' σ) : InPlace b b' where
  size := hsize
  solid := hsolid
  programs := hphnum ▸ hv.header.programs
  fits := by
    rw [hphnum]
    exact hv.header.programs_inside
  apart := fun p hfirst hlast r hr => hlaid r .programs p hr ⟨hfirst, hphnum ▸ hlast⟩
  symbols := hsymbols

/-- A step that changes one part of the file, and what is not solid there. -/
theorem within (hv : Valid b) (hlaid : LaidOut b) {r : Region} (hr : r ≠ .header)
    (hsize : b'.size = b.size) (hapart : ∀ p, ¬ Covers b r p → b'.data p = b.data p)
    (hsolid : ∀ p, Covers b r p → Solid b p → b'.data p = b.data p)
    (hsymbols : ∃ σ, Reordered b b' σ) : InPlace b b' := by
  refine of_solid hv hlaid hsize (fun p hp => ?_) (phnum_apart hlaid hr hapart) hsymbols
  by_cases hcovers : Covers b r p
  · exact hsolid p hcovers hp
  · exact hapart p hcovers

section Fields

variable (h : InPlace b b')

include h

/-- A field of the header. -/
theorem val_header {x : Field} (hx : InHeader x)
    (hfree : x.off + x.bytes ≤ ePhnum.off ∨ ePhnum.off + 2 ≤ x.off) : b'.val x = b.val x := by
  have hx : x.off + x.bytes ≤ sizeofHeader := hx
  refine num_congr fun k hk => h.solid _ (.header (by omega) (by omega))

theorem phoff : b'.phoff = b.phoff := h.val_header (by decide) (by decide)

theorem shoff : b'.shoff = b.shoff := h.val_header (by decide) (by decide)

theorem shnum : b'.shnum = b.shnum := h.val_header (by decide) (by decide)

/-- A field of a section header. -/
theorem val_entry (hi : i < b.shnum) (hk : k + n ≤ 8 ∨ (24 ≤ k ∧ k + n ≤ 48)) :
    b'.val ⟨sect b.shoff i + k, n⟩ = b.val ⟨sect b.shoff i + k, n⟩ := by
  refine num_congr fun j hj => ?_
  have hj : j < n := hj
  rw [Nat.add_assoc]
  exact h.solid _ (.entry hi (by omega))

theorem type (hi : i < b.shnum) : b'.val (shType b.shoff i) = b.val (shType b.shoff i) :=
  h.val_entry hi (Or.inl (by decide))

theorem offset (hi : i < b.shnum) : b'.val (shOffset b.shoff i) = b.val (shOffset b.shoff i) :=
  h.val_entry hi (Or.inr ⟨by decide, by decide⟩)

theorem bytes (hi : i < b.shnum) : b'.val (shSize b.shoff i) = b.val (shSize b.shoff i) :=
  h.val_entry hi (Or.inr ⟨by decide, by decide⟩)

end Fields

/-- The symbols are those of the file, in another order. -/
theorem shuffled (h : InPlace b b') (hv : Valid b) {σ : Nat → Nat} (hσ : Reordered b b' σ) :
    Shuffled b b' σ := by
  refine ⟨hσ.maps, hσ.known, fun j hj k hk => ?_⟩
  rw [h.shoff, h.offset (Buffer.symtabNdx_lt hv)]
  exact hσ.bytes j hj k hk

/-- **SECTIONS** are filed where they were. -/
theorem refiled (h : InPlace b b') (hv : Valid b) : Refiled b b' where
  tables := by
    have hok := hv.header
    have hfits := h.fits
    refine ⟨h.size ▸ hok.header, ?_, ?_, ?_, ?_⟩
    · rw [h.phoff, h.size]
      exact hok.phoff
    · rw [h.phoff, h.size, Nat.le_div_iff_mul_le (by decide), Nat.mul_comm]
      simp only [program, sizeofProgram] at hfits ⊢
      omega
    · rw [h.shoff, h.size]
      exact hok.shoff
    · rw [h.shoff, h.size, h.shnum]
      exact hok.sht
  header := by
    intro x hx
    simp only [List.mem_cons, List.not_mem_nil, or_false] at hx
    rcases hx with rfl | rfl | rfl | rfl | rfl <;> exact h.val_header (by decide) (by decide)
  programs := h.programs
  entries := by
    intro i hi k hk
    rw [h.shoff]
    exact h.solid _ (.entry hi (by omega))
  addresses := by
    intro i hi htype
    rw [h.shoff]
    show num b'.data (sect b.shoff i + 16) 8 = num b.data (sect b.shoff i + 16) 8
    refine num_congr fun k hk => ?_
    rw [Nat.add_assoc]
    exact h.solid _ (.address hi htype (by omega) (by omega))
  inside := by
    intro i hi hbacked
    rw [h.shoff, h.offset hi, h.size]
    exact hv.contents_inside hi hbacked
  contents := by
    intro i hi hbacked htype hndx k hk
    rw [h.shoff, h.offset hi]
    exact h.solid _ (.contents ⟨hi, hbacked, by omega, by omega⟩ htype hndx)
  symbols := by
    obtain ⟨σ, hσ⟩ := h.symbols
    exact ⟨σ, h.shuffled hv hσ⟩

/-- The symbol table stays where it was. -/
theorem table_eq (h : InPlace b b') (hv : Valid b) (hsym : b.HasSymtab) : b'.table = b.table := by
  have hr := h.refiled hv
  have hlt := Buffer.symtabNdx_lt hv
  obtain ⟨hlink, -⟩ := (hv.sections _ hlt).link hsym.type
  have hstrings : b'.val (shOffset b'.shoff (b'.val (shLink b'.shoff b.symtabNdx)))
      = b.val (shOffset b.shoff (b.val (shLink b.shoff b.symtabNdx))) := by
    rw [hr.link hlt, h.shoff, h.offset hlink]
  rw [Buffer.table, Buffer.table, hr.symtabNdx_eq hv hsym, Buffer.tableOf, Buffer.tableOf,
    hstrings, h.shoff, h.offset hlt, h.bytes hlt]

/-- The other parts stay where they are. -/
theorem covers_iff (h : InPlace b b') {r : Region} (hr : r ≠ .programs) :
    Covers b' r p ↔ Covers b r p := by
  cases r with
  | header => exact Iff.rfl
  | programs => exact absurd rfl hr
  | sections => rw [Covers, Covers, h.shoff, h.shnum]
  | contents i =>
      rw [Covers, Covers, h.shoff, h.shnum]
      refine and_congr_right fun hi => ?_
      rw [FileBacked, FileBacked, h.shoff, h.type hi, h.offset hi, h.bytes hi]

/-- **THE LAYOUT** stays one. -/
theorem laidOut (h : InPlace b b') (hlaid : LaidOut b) : LaidOut b' := by
  have hprograms : ∀ r p, r ≠ .programs → Covers b' r p → ¬ Covers b' .programs p := by
    intro r p hr hp hprogram
    rw [Covers, h.phoff] at hprogram
    exact hr (h.apart p hprogram.1 hprogram.2 r ((h.covers_iff hr).mp hp))
  intro r r' p hp hp'
  by_cases hr : r = .programs
  · subst hr
    by_contra hne
    exact hprograms r' p (fun heq => hne heq.symm) hp' hp
  · by_cases hr' : r' = .programs
    · subst hr'
      exact absurd hp' (hprograms r p hr hp)
    · exact hlaid r r' p ((h.covers_iff hr).mp hp) ((h.covers_iff hr').mp hp')

end InPlace

end ElfFile
