import Cs61.ElfLookups
import Cs61.LoopRules

/-! # `shift_sections`

    A gap is opened in the file, after all offsets behind the cut have been raised
    in the two tables.  Segments, sections and the program header table may not
    lie across the cut; whether the section header table does is not looked at. -/

namespace ElfFile

open ByteFiles Checks LoopRules

/-- A place in the file, and how far what stands there is moved (`ptrdiff_t`). -/
structure Cut where
  offset : Nat
  diff : Nat
  pos : 0 < diff
  small : diff < 2 ^ 63

namespace ElfInfo

/-! ## The functions -/

/-- A field is written. -/
def set (e : ElfInfo) (x : Field) (v : Nat) : ElfInfo :=
  { e with data := put e.data x.off x.bytes v }

/-- The same file with other contents. -/
def rewritten (e : ElfInfo) (d : Bytes) (changed : Bool) : ElfInfo :=
  { e with data := d, changed := changed }

/-- A pass, and an end of the loop where the program stops. -/
def turn {σ ρ : Type} (x : Except Stop (Turn σ ρ)) : Turn σ (Except Stop ρ) :=
  match x with
  | .error s => .leave (.error s)
  | .ok (.again s) => .again s
  | .ok (.leave r) => .leave (.ok r)

/-- The text of the message about a segment or a section across the cut. -/
def refusal : String := "spans alignment boundary"

/-- One pass of the loop over the program headers. -/
def programPass (c : Cut) (x : Nat × ElfInfo) : Except Stop (Turn (Nat × ElfInfo) ElfInfo) := do
  let (i, e) := x
  if i = (← e.get ePhnum) then .ok (.leave e) else
    let offset ← e.get (pOffset e.pht i)
    if offset ≥ c.offset then
      .ok (.again ((i + 1) % 2 ^ 32, e.set (pOffset e.pht i) ((offset + c.diff) % 2 ^ 64)))
    else
      let filesz ← e.get (pFilesz e.pht i)
      if (offset + filesz) % 2 ^ 64 > c.offset then
        .error (.exit ⟨.program i, refusal, [c.offset, c.diff, offset, filesz]⟩)
      else .ok (.again ((i + 1) % 2 ^ 32, e))

/-- A section that starts before the cut and has contents behind it. -/
def spans (e : ElfInfo) (c : Cut) (i : Nat) : Except Stop Bool :=
  both (e.fileBacked i) do
    let offset ← e.get (shOffset e.sht i)
    e.test (shSize e.sht i) fun size => (offset + size) % 2 ^ 64 > c.offset

/-- The message about such a section. -/
def refuse (e : ElfInfo) (c : Cut) (i : Nat) : Except Stop Complaint := do
  let name ← e.sectionDisplayName i
  let part ← match name with
    | some p => (e.string p).map .name
    | none => .ok .unnamed
  let offset ← e.get (shOffset e.sht i)
  let size ← e.get (shSize e.sht i)
  .ok ⟨part, refusal, [c.offset, c.diff, offset, size]⟩

/-- One pass of the loop over the section headers. -/
def sectionPass (c : Cut) (x : Nat × ElfInfo) : Except Stop (Turn (Nat × ElfInfo) ElfInfo) := do
  let (i, e) := x
  if i = (← e.get eShnum) then .ok (.leave e) else
    let offset ← e.get (shOffset e.sht i)
    if offset ≥ c.offset then
      .ok (.again ((i + 1) % 2 ^ 32, e.set (shOffset e.sht i) ((offset + c.diff) % 2 ^ 64)))
    else if ← e.spans c i then .error (.exit (← e.refuse c i))
    else .ok (.again ((i + 1) % 2 ^ 32, e))

/-- A larger buffer; what is behind the old capacity is not known. -/
def realloc (e : ElfInfo) (capacity : Nat) (hfits : e.size ≤ capacity) (hsmall : capacity < 2 ^ 63) :
    ElfInfo :=
  { e with capacity := capacity, fits := hfits, small := hsmall }

/-- `grow(capacity)`. -/
def grow (e : ElfInfo) (capacity : Nat) : Except Stop ElfInfo := do
  if e.capacity < capacity then
    if h : max capacity (e.capacity + 32768) < 2 ^ 63 then
      let e := e.realloc _
        (Nat.le_trans (Nat.le_trans e.fits (Nat.le_add_right _ _)) (Nat.le_max_right _ _)) h
      if e.ok then
        let e ← e.locate
        .ok { e with cache := none }
      else .ok e
    else .error .badAlloc
  else .ok e

/-- `memmove`, `memset` and the new size. -/
def moveData (e : ElfInfo) (c : Cut) : Except Stop ElfInfo :=
  if h : e.size + c.diff ≤ e.capacity then
    .ok { e with
      data := openGap e.data e.size c.offset c.diff
      size := e.size + c.diff
      changed := true
      fits := h
      small := e.small }
  else .error (.outside e.size c.diff)

/-- `e_shoff` is the last offset that is updated. -/
def updateShoff (e : ElfInfo) (c : Cut) : Except Stop ElfInfo := do
  let shoff ← e.get eShoff
  if shoff ≥ c.offset then
    let e := e.set eShoff ((shoff + c.diff) % 2 ^ 64)
    let sht ← e.get eShoff
    .ok { e with sht := sht }
  else .ok e

/-- What comes before the loops. -/
def checkCut (e : ElfInfo) (c : Cut) : Except Stop Unit := do
  if c.offset < e.size then
    let phoff ← e.get ePhoff
    let phnum ← e.get ePhnum
    if (phoff + phnum * sizeofProgram) % 2 ^ 64 ≥ c.offset then
      .error (.exit ⟨.file, "program header spans alignment boundary", []⟩)
    else .ok ()
  else .error .assertion

/-- What comes behind the loops. -/
def insertGap (e : ElfInfo) (c : Cut) : Except Stop ElfInfo := do
  let e ← e.grow ((e.size + c.diff) % 2 ^ 64)
  let e ← e.moveData c
  e.updateShoff c

/-- The loop over the program headers. -/
def programLoop (c : Cut) (e : ElfInfo) (budget : Nat) : Option (Except Stop ElfInfo) :=
  run (fun x => turn (programPass c x)) budget (0, e)

/-- The loop over the section headers. -/
def sectionLoop (c : Cut) (e : ElfInfo) (budget : Nat) : Option (Except Stop ElfInfo) :=
  run (fun x => turn (sectionPass c x)) budget (0, e)

/-- `shift_sections(c.offset, c.diff)`. -/
def shiftSections (e : ElfInfo) (c : Cut) (budget : Nat) : Option (Except Stop ElfInfo) :=
  andThen (some (e.checkCut c)) fun _ =>
    andThen (programLoop c e budget) fun e =>
      andThen (sectionLoop c e budget) fun e => some (e.insertGap c)

end ElfInfo

/-! ## The updated tables -/

/-- Where an offset in the file is when the gap is open. -/
def Cut.moved (c : Cut) (v : Nat) : Nat := if v ≥ c.offset then (v + c.diff) % 2 ^ 64 else v

namespace Buffer

/-- The file when the offsets of the first `n` segments are updated. -/
def programsUpTo (b : Buffer) (c : Cut) (n : Nat) : Bytes :=
  mapNums c.moved 8 (fun i => (pOffset b.phoff i).off) b.data n

/-- The file when all segments and the first `n` sections are updated. -/
def sectionsUpTo (b : Buffer) (c : Cut) (n : Nat) : Bytes :=
  mapNums c.moved 8 (fun i => (shOffset b.shoff i).off) (b.programsUpTo c b.phnum) n

/-- The file when the first `n` sections are updated, and no segments. -/
def sectionsAlone (b : Buffer) (c : Cut) (n : Nat) : Bytes :=
  mapNums c.moved 8 (fun i => (shOffset b.shoff i).off) b.data n

/-- The file when the two tables are updated. -/
def updated (b : Buffer) (c : Cut) : Bytes := b.sectionsUpTo c b.shnum

/-- An accepted file with other contents. -/
def withData (b : Buffer) (d : Bytes) : ElfInfo := { b.accepted with data := d }

end Buffer

/-- The header and the two tables do not overlap. -/
structure Regular (b : Buffer) : Prop where
  pht : sizeofHeader ≤ b.phoff
  sht : sizeofHeader ≤ b.shoff
  apart : program b.phoff b.phnum ≤ b.shoff ∨ sect b.shoff b.shnum ≤ b.phoff

/-- A byte of an offset in one of the tables. -/
def OffsetByte (b : Buffer) (p : Nat) : Prop :=
  (∃ i, i < b.phnum ∧ (pOffset b.phoff i).off ≤ p ∧ p < (pOffset b.phoff i).off + 8)
    ∨ ∃ i, i < b.shnum ∧ (shOffset b.shoff i).off ≤ p ∧ p < (shOffset b.shoff i).off + 8

namespace Cut

variable (c : Cut) {v : Nat}

/-- Behind the cut an offset is raised. -/
theorem moved_of_le (h : c.offset ≤ v) : c.moved v = (v + c.diff) % 2 ^ 64 := if_pos h

/-- Before the cut an offset is kept. -/
theorem moved_of_lt (h : v < c.offset) : c.moved v = v := if_neg (Nat.not_le.mpr h)

/-- A raised offset is one of 64 bits. -/
theorem moved_lt (h : v < 256 ^ 8) : c.moved v < 256 ^ 8 := by
  rw [moved]
  split_ifs
  · exact Nat.mod_lt _ (by decide)
  · exact h

end Cut

/-- The offsets of segments do not overlap each other. -/
theorem apart_pOffset (pht : Nat) : Apart 8 fun i => (pOffset pht i).off := by
  intro i j hij
  simp only [pOffset, program, sizeofProgram]
  omega

/-- Nor do those of sections. -/
theorem apart_shOffset (sht : Nat) : Apart 8 fun i => (shOffset sht i).off := by
  intro i j hij
  simp only [shOffset, sect, sizeofSection]
  omega

namespace Buffer

variable {b : Buffer} {c : Cut} {i k m n p : Nat} {x : Field}

/-- No other byte is touched. -/
theorem programsUpTo_free (hn : n ≤ b.phnum) (hp : ¬ OffsetByte b p) :
    b.programsUpTo c n p = b.data p := by
  refine mapNums_of_not_mem fun i hi => ?_
  by_contra hmeet
  exact hp (Or.inl ⟨i, by omega, by omega, by omega⟩)

theorem sectionsUpTo_free (hn : n ≤ b.shnum) (hp : ¬ OffsetByte b p) :
    b.sectionsUpTo c n p = b.data p := by
  rw [sectionsUpTo, mapNums_of_not_mem, programsUpTo_free (Nat.le_refl _) hp]
  intro i hi
  by_contra hmeet
  exact hp (Or.inr ⟨i, by omega, by omega, by omega⟩)

/-- `p_offset` before its turn and after it. -/
theorem num_programsUpTo_of_le (hi : n ≤ i) :
    num (b.programsUpTo c n) (pOffset b.phoff i).off 8 = b.val (pOffset b.phoff i) :=
  num_mapNums_of_le (apart_pOffset b.phoff) hi

theorem num_programsUpTo (hi : i < n) :
    num (b.programsUpTo c n) (pOffset b.phoff i).off 8 = c.moved (b.val (pOffset b.phoff i)) :=
  num_mapNums (apart_pOffset b.phoff) (fun _ hv => c.moved_lt hv) hi

/-- Of a program header the loop touches only `p_offset`. -/
theorem programsUpTo_rest (hk : k < sizeofProgram) (hoff : k < 8 ∨ 16 ≤ k) :
    b.programsUpTo c n (program b.phoff i + k) = b.data (program b.phoff i + k) := by
  refine mapNums_of_not_mem fun j _ => ?_
  simp only [pOffset, program, sizeofProgram] at hk ⊢
  omega

/-- Between the two loops. -/
theorem sectionsUpTo_zero : b.sectionsUpTo c 0 = b.programsUpTo c b.phnum := by
  rw [sectionsUpTo, mapNums]

end Buffer

/-! ## Tables that overlap

    The offsets are raised in place, so raising one changes what else its bytes
    stand for, if the tables overlap one another or the header. -/

/-- Raising the first `n` segments changes no byte of the header. -/
def ProgramsSpare (b : Buffer) (c : Cut) (n : Nat) : Prop :=
  ∀ p, p < sizeofHeader → b.programsUpTo c n p = b.data p

/-- Raising the segments and the first `n` sections changes no byte of the header,
    and raising the segments none of the section header table. -/
structure SectionsSpare (b : Buffer) (c : Cut) (n : Nat) : Prop where
  programs : ProgramsSpare b c b.phnum
  table : ∀ p, b.shoff ≤ p → p < sect b.shoff b.shnum → b.programsUpTo c b.phnum p = b.data p
  header : ∀ p, p < sizeofHeader → b.sectionsAlone c n p = b.data p

/-- The cut is behind the header, and no offset that is raised changes a byte of
    the header or of the other table. -/
structure Unshared (b : Buffer) (c : Cut) : Prop extends SectionsSpare b c b.shnum where
  cut : sizeofHeader ≤ c.offset
  sections : ∀ p, b.phoff ≤ p → p < program b.phoff b.phnum → b.sectionsAlone c b.shnum p = b.data p
  shoff : ∀ p, b.phoff ≤ p → p < program b.phoff b.phnum →
    put b.data eShoff.off eShoff.bytes (c.moved b.shoff) p = b.data p

/-- What spares the header spares it on the way. -/
theorem ProgramsSpare.mono {b : Buffer} {c : Cut} {n m : Nat} (h : ProgramsSpare b c m)
    (hn : n ≤ m) : ProgramsSpare b c n :=
  fun p hp => mapNums_same (apart_pOffset b.phoff) (fun _ hv => c.moved_lt hv) hn (h p hp)

namespace SectionsSpare

variable {b : Buffer} {c : Cut} {i k m n p : Nat}

/-- The same for the second loop. -/
theorem mono (h : SectionsSpare b c m) (hn : n ≤ m) : SectionsSpare b c n :=
  ⟨h.programs, h.table, fun p hp =>
    mapNums_same (apart_shOffset b.shoff) (fun _ hv => c.moved_lt hv) hn (h.header p hp)⟩

variable (h : SectionsSpare b c n)

include h

/-- The segments do not touch `sh_offset`. -/
theorem num_programsUpTo (hi : i < b.shnum) :
    num (b.programsUpTo c b.phnum) (shOffset b.shoff i).off 8 = b.val (shOffset b.shoff i) := by
  refine num_congr fun k hk => h.table _ ?_ ?_
  · simp only [shOffset, sect]
    omega
  · simp only [shOffset, sect, sizeofSection] at hk ⊢
    omega

/-- A byte that raising the sections alone does not change is as the segments left
    it. -/
theorem sectionsUpTo_eq (hm : m ≤ b.shnum) (hp : b.sectionsAlone c m p = b.data p) :
    b.sectionsUpTo c m p = b.programsUpTo c b.phnum p := by
  by_cases hin : ∃ i, i < m ∧ (shOffset b.shoff i).off ≤ p ∧ p < (shOffset b.shoff i).off + 8
  · obtain ⟨i, hi, hfirst, hlast⟩ := hin
    have htable : b.programsUpTo c b.phnum p = b.data p := by
      refine h.table p ?_ ?_
      · simp only [shOffset, sect] at hfirst
        omega
      · simp only [shOffset, sect, sizeofSection] at hlast ⊢
        omega
    rw [htable, ← hp]
    exact mapNums_congr (apart_shOffset b.shoff) (fun _ hv => c.moved_lt hv) hi
      (h.num_programsUpTo (Nat.lt_of_lt_of_le hi hm)) hfirst hlast
  · refine mapNums_of_not_mem fun i hi => ?_
    by_contra hmeet
    exact hin ⟨i, hi, by omega, by omega⟩

/-- The header is as in the file. -/
theorem header_same (hn : n ≤ b.shnum) (hp : p < sizeofHeader) :
    b.sectionsUpTo c n p = b.data p :=
  (h.sectionsUpTo_eq hn (h.header p hp)).trans (h.programs p hp)

/-- A field of the header is as in the file. -/
theorem num_header (hn : n ≤ b.shnum) {x : Field} (hx : InHeader x) :
    num (b.sectionsUpTo c n) x.off x.bytes = b.val x := by
  have hx : x.off + x.bytes ≤ sizeofHeader := hx
  exact num_congr fun k hk => h.header_same hn (by omega)

/-- Of a section header the loops touch only `sh_offset`. -/
theorem section_same (hn : n ≤ b.shnum) (hi : i < b.shnum) (hk : k < sizeofSection)
    (hoff : k < 24 ∨ 32 ≤ k) :
    b.sectionsUpTo c n (sect b.shoff i + k) = b.data (sect b.shoff i + k) := by
  have halone : b.sectionsAlone c n (sect b.shoff i + k) = b.data (sect b.shoff i + k) := by
    refine mapNums_of_not_mem fun j _ => ?_
    simp only [shOffset, sect, sizeofSection] at hk ⊢
    omega
  rw [h.sectionsUpTo_eq hn halone]
  refine h.table _ ?_ ?_
  · simp only [sect]
    omega
  · simp only [sect, sizeofSection] at hk ⊢
    omega

/-- A field of a section header other than the offset is as in the file. -/
theorem num_section (hn : n ≤ b.shnum) (hi : i < b.shnum) {x : Field}
    (hfirst : sect b.shoff i ≤ x.off) (hlast : x.off + x.bytes ≤ sect b.shoff i + sizeofSection)
    (hoff : x.off + x.bytes ≤ sect b.shoff i + 24 ∨ sect b.shoff i + 32 ≤ x.off) :
    num (b.sectionsUpTo c n) x.off x.bytes = b.val x := by
  refine num_congr fun l hl => ?_
  rw [show x.off + l = sect b.shoff i + (x.off - sect b.shoff i + l) by omega]
  exact h.section_same hn hi (by omega) (by omega)

/-- `sh_offset` before its turn and after it. -/
theorem num_of_le (hi : i < b.shnum) (hm : m ≤ i) :
    num (b.sectionsUpTo c m) (shOffset b.shoff i).off 8 = b.val (shOffset b.shoff i) :=
  (num_mapNums_of_le (apart_shOffset b.shoff) hm).trans (h.num_programsUpTo hi)

theorem num_moved (hi : i < b.shnum) (hm : i < m) :
    num (b.sectionsUpTo c m) (shOffset b.shoff i).off 8 = c.moved (b.val (shOffset b.shoff i)) := by
  rw [Buffer.sectionsUpTo, num_mapNums (apart_shOffset b.shoff) (fun _ hv => c.moved_lt hv) hm,
    h.num_programsUpTo hi]

end SectionsSpare

namespace Unshared

variable {b : Buffer} {c : Cut} {i k p : Nat} (h : Unshared b c)

include h

/-- The program header table is as the segments left it. -/
theorem program_same (hfirst : b.phoff ≤ p) (hlast : p < program b.phoff b.phnum) :
    b.updated c p = b.programsUpTo c b.phnum p :=
  h.toSectionsSpare.sectionsUpTo_eq (Nat.le_refl _) (h.sections p hfirst hlast)

theorem num_pOffset (hi : i < b.phnum) :
    num (b.updated c) (pOffset b.phoff i).off 8 = c.moved (b.val (pOffset b.phoff i)) := by
  rw [← Buffer.num_programsUpTo hi]
  refine num_congr fun k hk => h.program_same ?_ ?_
  · simp only [pOffset, program]
    omega
  · simp only [pOffset, program, sizeofProgram] at hk ⊢
    omega

/-- Of a program header the loops touch only `p_offset`. -/
theorem program_rest (hi : i < b.phnum) (hk : k < sizeofProgram) (hoff : k < 8 ∨ 16 ≤ k) :
    b.updated c (program b.phoff i + k) = b.data (program b.phoff i + k) := by
  rw [h.program_same, Buffer.programsUpTo_rest hk hoff]
  · simp only [program]
    omega
  · simp only [program, sizeofProgram] at hk ⊢
    omega

end Unshared

/-- Tables that do not overlap, and a cut behind the program header table. -/
theorem Regular.unshared {b : Buffer} {c : Cut} (h : Regular b)
    (hcut : program b.phoff b.phnum < c.offset) : Unshared b c := by
  have hpht := h.pht
  have hsht := h.sht
  have hapart := h.apart
  simp only [sect, program, sizeofSection, sizeofProgram] at hcut hapart
  refine { programs := fun p hp => ?_, table := fun p hfirst hlast => ?_, header := fun p hp => ?_,
           cut := by omega, sections := fun p hfirst hlast => ?_, shoff := fun p hfirst _ => ?_ }
  · refine mapNums_of_not_mem fun i _ => ?_
    simp only [pOffset, program, sizeofProgram]
    omega
  · refine mapNums_of_not_mem fun i hi => ?_
    simp only [pOffset, sect, program, sizeofSection, sizeofProgram] at hlast ⊢
    omega
  · refine mapNums_of_not_mem fun i _ => ?_
    simp only [shOffset, sect, sizeofSection]
    omega
  · refine mapNums_of_not_mem fun i hi => ?_
    simp only [shOffset, sect, program, sizeofSection, sizeofProgram] at hlast ⊢
    omega
  · refine put_of_not_mem _ (Or.inr ?_)
    have hheader : eShoff.off + eShoff.bytes ≤ sizeofHeader := by decide
    omega

/-! ## The loops -/

/-- A segment that starts before the cut and, in 64 bits, ends behind it. -/
def ProgramSpans (b : Buffer) (c : Cut) (i : Nat) : Prop :=
  b.val (pOffset b.phoff i) < c.offset
    ∧ c.offset < (b.val (pOffset b.phoff i) + b.val (pFilesz b.phoff i)) % 2 ^ 64

instance (b : Buffer) (c : Cut) (i : Nat) : Decidable (ProgramSpans b c i) :=
  inferInstanceAs (Decidable (_ ∧ _))

/-- A section has contents in the file. -/
def FileBacked (b : Buffer) (i : Nat) : Prop :=
  b.val (shType b.shoff i) ≠ shtNull ∧ b.val (shType b.shoff i) ≠ shtNobits

instance (b : Buffer) (i : Nat) : Decidable (FileBacked b i) := inferInstanceAs (Decidable (_ ∧ _))

/-- The contents of a section are in the file. -/
theorem Valid.contents_inside {b : Buffer} {i : Nat} (hv : Valid b) (hi : i < b.shnum)
    (hbacked : FileBacked b i) : b.val (shOffset b.shoff i) < b.size
      ∧ b.val (shOffset b.shoff i) + b.val (shSize b.shoff i) ≤ b.size := by
  obtain ⟨hstart, hlen⟩ := (hv.sections i hi).range hbacked.1 hbacked.2
  omega

/-- The contents of a section start before the cut and end behind it. -/
def SectionSpans (b : Buffer) (c : Cut) (i : Nat) : Prop :=
  b.val (shOffset b.shoff i) < c.offset ∧ FileBacked b i
    ∧ c.offset < (b.val (shOffset b.shoff i) + b.val (shSize b.shoff i)) % 2 ^ 64

instance (b : Buffer) (c : Cut) (i : Nat) : Decidable (SectionSpans b c i) :=
  inferInstanceAs (Decidable (_ ∧ _))

namespace ElfInfo

variable {b : Buffer} {c : Cut} {d : Bytes} {i : Nat} {x : Field}

/-- A read from the updated file. -/
theorem get_withData (h : x.off + x.bytes ≤ b.size) {α : Type} (f : Nat → Except Stop α) :
    ((b.withData d).get x >>= f) = f (num d x.off x.bytes) :=
  Buffer.get_bind (b := (b.withData d).toBuffer) h f

theorem set_withData (b : Buffer) (d : Bytes) (x : Field) (v : Nat) :
    (b.withData d).set x v = b.withData (put d x.off x.bytes v) := rfl

theorem pht_withData (b : Buffer) (d : Bytes) : (b.withData d).pht = b.phoff := rfl

theorem sht_withData (b : Buffer) (d : Bytes) : (b.withData d).sht = b.shoff := rfl

/-- An index of a table is no larger than its 16-bit count. -/
theorem succ_mod (hi : i < n) (hn : n < 2 ^ 16) : (i + 1) % 2 ^ 32 = i + 1 :=
  Nat.mod_eq_of_lt (by omega)

/-- The counts have 16 bits. -/
theorem phnum_lt (b : Buffer) : b.phnum < 2 ^ 16 := num_lt b.data ePhnum.off 2

theorem shnum_lt (b : Buffer) : b.shnum < 2 ^ 16 := num_lt b.data eShnum.off 2

/-- The end of the first loop is where it was. -/
theorem phnum_programsUpTo {n : Nat} (h : ProgramsSpare b c n) :
    num (b.programsUpTo c n) ePhnum.off ePhnum.bytes = b.phnum :=
  num_congr fun k hk => h _ (by simp only [ePhnum, sizeofHeader] at hk ⊢; omega)

/-- **ONE PASS** over the program headers. -/
theorem programPass_eq (hv : HeaderOk b) (h : ProgramsSpare b c i) (hi : i < b.phnum) :
    programPass c (i, b.withData (b.programsUpTo c i))
      = if ProgramSpans b c i then .error (.exit ⟨.program i, refusal,
          [c.offset, c.diff, b.val (pOffset b.phoff i), b.val (pFilesz b.phoff i)]⟩)
        else .ok (.again (i + 1, b.withData (b.programsUpTo c (i + 1)))) := by
  have hinside := hv.program_inside hi
  have hoffset_in : (pOffset b.phoff i).off + 8 ≤ b.size := by
    simp only [pOffset, sizeofProgram] at hinside ⊢
    omega
  have hfilesz_in : (pFilesz b.phoff i).off + 8 ≤ b.size := by
    simp only [pFilesz, sizeofProgram] at hinside ⊢
    omega
  have hoffset : num (b.programsUpTo c i) (pOffset b.phoff i).off (pOffset b.phoff i).bytes
      = b.val (pOffset b.phoff i) := Buffer.num_programsUpTo_of_le (Nat.le_refl i)
  have hfilesz : num (b.programsUpTo c i) (pFilesz b.phoff i).off (pFilesz b.phoff i).bytes
      = b.val (pFilesz b.phoff i) := by
    refine num_congr fun k hk => ?_
    have hk : k < 8 := hk
    have hrest := Buffer.programsUpTo_rest (b := b) (c := c) (i := i) (n := i) (k := 32 + k)
      (by simp only [sizeofProgram]; omega) (by omega)
    rwa [← Nat.add_assoc] at hrest
  have hnext : b.programsUpTo c (i + 1) = put (b.programsUpTo c i) (pOffset b.phoff i).off
      (pOffset b.phoff i).bytes (c.moved (b.val (pOffset b.phoff i))) := by
    rw [← hoffset]
    rfl
  rw [programPass, get_withData (hv.inside ePhnum (by decide)),
    phnum_programsUpTo h, if_neg (Nat.ne_of_lt hi), pht_withData,
    get_withData hoffset_in, hoffset, succ_mod hi (phnum_lt b)]
  by_cases hcut : b.val (pOffset b.phoff i) ≥ c.offset
  · rw [if_pos hcut, if_neg fun hspan => Nat.not_le.mpr hspan.1 hcut, hnext, c.moved_of_le hcut,
      set_withData]
  · have hlt := Nat.lt_of_not_le hcut
    have hsame : b.programsUpTo c (i + 1) = b.programsUpTo c i := by
      rw [hnext, c.moved_of_lt hlt, ← hoffset, put_num]
    rw [if_neg hcut, get_withData hfilesz_in, hfilesz, hsame]
    by_cases hspan : c.offset
        < (b.val (pOffset b.phoff i) + b.val (pFilesz b.phoff i)) % 2 ^ 64
    · rw [if_pos hspan, if_pos ⟨hlt, hspan⟩]
    · rw [if_neg hspan, if_neg fun h => hspan h.2]

/-- So is that of the second. -/
theorem shnum_sectionsUpTo {n : Nat} (h : SectionsSpare b c n) (hn : n ≤ b.shnum) :
    num (b.sectionsUpTo c n) eShnum.off eShnum.bytes = b.shnum :=
  h.num_header hn (by decide)

/-- A test of a field that is as in the file. -/
theorem test_withData {t : Nat → Bool} {P : Prop} (hin : x.off + x.bytes ≤ b.size)
    (hx : num d x.off x.bytes = b.val x) (hP : t (b.val x) = true ↔ P) :
    Decides ((b.withData d).test x t) P := by
  refine Buffer.test_decides (b := (b.withData d).toBuffer) hin ?_
  rwa [← hx] at hP

/-- The test whether a section spans the cut. -/
theorem spans_decides (hv : HeaderOk b) (h : SectionsSpare b c i) (hi : i < b.shnum) :
    Decides ((b.withData (b.sectionsUpTo c i)).spans c i) (FileBacked b i
      ∧ c.offset < (b.val (shOffset b.shoff i) + b.val (shSize b.shoff i)) % 2 ^ 64) := by
  obtain ⟨-, htype, hoffset, hsize, -⟩ := hv.fields_inside hi
  have hle := Nat.le_of_lt hi
  have htype_same : num (b.sectionsUpTo c i) (shType b.shoff i).off (shType b.shoff i).bytes
      = b.val (shType b.shoff i) := by
    refine h.num_section hle hi ?_ ?_ (Or.inl ?_) <;> simp only [shType, sizeofSection] <;> omega
  have hsize_same : num (b.sectionsUpTo c i) (shSize b.shoff i).off (shSize b.shoff i).bytes
      = b.val (shSize b.shoff i) := by
    refine h.num_section hle hi ?_ ?_ (Or.inr ?_) <;> simp only [shSize, sizeofSection] <;> omega
  refine Decides.both (Decides.both ?_ fun _ => ?_) fun _ => ?_
  · exact test_withData htype htype_same decide_eq_true_iff
  · exact test_withData htype htype_same decide_eq_true_iff
  · rw [sht_withData, get_withData hoffset]
    refine test_withData hsize hsize_same ?_
    rw [decide_eq_true_iff, gt_iff_lt, show (shOffset b.shoff i).bytes = 8 from rfl,
      h.num_of_le hi (Nat.le_refl i)]

/-- Where the name of a section is looked for when it is its turn: the section of
    the names may have been updated already. -/
def nameAt (b : Buffer) (c : Cut) (i : Nat) : Nat :=
  num (b.sectionsUpTo c i) (shOffset b.shoff b.shstrndx).off 8 + b.val (shName b.shoff i)

/-- The name of a section can be printed when it is its turn. -/
def NameReadable (b : Buffer) (c : Cut) (i : Nat) : Prop :=
  Terminated (b.withData (b.sectionsUpTo c i)).toBuffer (nameAt b c i)

/-- The name of a section, while the offsets are being raised. -/
theorem sectionDisplayName_eq (hv : HeaderOk b) (h : SectionsSpare b c i) (hi : i < b.shnum) :
    (b.withData (b.sectionsUpTo c i)).sectionDisplayName i
      = ((b.withData (b.sectionsUpTo c i)).char (nameAt b c i) >>= fun first =>
          Except.ok (if first ≠ 0 then some (nameAt b c i) else none)) := by
  obtain ⟨hname, -⟩ := hv.fields_inside hi
  obtain ⟨-, -, hstrtab, -⟩ := hv.fields_inside hv.ndx_lt
  have hndx : num (b.sectionsUpTo c i) eShstrndx.off eShstrndx.bytes = b.shstrndx :=
    h.num_header (Nat.le_of_lt hi) (by decide)
  have hsection : num (b.sectionsUpTo c i) (shName b.shoff i).off (shName b.shoff i).bytes
      = b.val (shName b.shoff i) := by
    refine h.num_section (Nat.le_of_lt hi) hi ?_ ?_ (Or.inl ?_) <;>
      simp only [shName, sizeofSection] <;> omega
  have hnames : (b.withData (b.sectionsUpTo c i)).namesAt
      = .ok (num (b.sectionsUpTo c i) (shOffset b.shoff b.shstrndx).off 8) := by
    rw [namesAt, get_withData (hv.inside eShstrndx (by decide)), hndx, sht_withData]
    exact Buffer.get_ok (b := (b.withData (b.sectionsUpTo c i)).toBuffer) hstrtab
  rw [sectionDisplayName, get_withData (hv.inside eShnum (by decide)),
    shnum_sectionsUpTo h (Nat.le_of_lt hi), if_pos hi, hnames, sht_withData]
  show ((b.withData _).get _ >>= _) = _
  rw [get_withData hname, hsection]
  rfl

/-- The message names the section, or reads outside the file. -/
theorem refuse_cases (hv : HeaderOk b) (h : SectionsSpare b c i) (hi : i < b.shnum) :
    (NameReadable b c i ∧ Defined ((b.withData (b.sectionsUpTo c i)).refuse c i))
      ∨ (¬ NameReadable b c i
        ∧ ∃ q n, (b.withData (b.sectionsUpTo c i)).refuse c i = .error (.outside q n)) := by
  obtain ⟨-, -, hoffset, hsize, -⟩ := hv.fields_inside hi
  have hsize_eq : (b.withData (b.sectionsUpTo c i)).size = b.size := rfl
  rw [refuse, sectionDisplayName_eq hv h hi, sht_withData]
  have hnumbers : ∀ part : Part, Defined (((b.withData (b.sectionsUpTo c i)).get (shOffset b.shoff i))
      >>= fun offset => ((b.withData (b.sectionsUpTo c i)).get (shSize b.shoff i)) >>= fun size =>
        Except.ok (⟨part, refusal, [c.offset, c.diff, offset, size]⟩ : Complaint)) := by
    intro part
    rw [get_withData hoffset, get_withData hsize]
    exact ⟨_, rfl⟩
  by_cases hstart : nameAt b c i < b.size
  · rw [Buffer.char_ok (b := (b.withData (b.sectionsUpTo c i)).toBuffer) hstart]
    by_cases hfirst : b.sectionsUpTo c i (nameAt b c i) = 0
    · refine Or.inl ⟨⟨_, Nat.le_refl _, hstart, hfirst⟩, ?_⟩
      show Defined ((Except.ok (if b.sectionsUpTo c i (nameAt b c i) ≠ 0 then _ else _)) >>= _)
      rw [if_neg (not_not.mpr hfirst)]
      exact hnumbers .unnamed
    · by_cases hread : NameReadable b c i
      · obtain ⟨s, hs⟩ := Buffer.string_defined hread
        refine Or.inl ⟨hread, ?_⟩
        show Defined ((Except.ok (if b.sectionsUpTo c i (nameAt b c i) ≠ 0 then _ else _)) >>= _)
        rw [if_pos hfirst]
        show Defined ((Buffer.string _ _).map _ >>= _)
        rw [hs]
        exact hnumbers (.name s)
      · obtain ⟨q, hq⟩ := Buffer.string_outside hread
        refine Or.inr ⟨hread, q, 1, ?_⟩
        show ((Except.ok (if b.sectionsUpTo c i (nameAt b c i) ≠ 0 then _ else _)) >>= _) = _
        rw [if_pos hfirst]
        show ((Buffer.string _ _).map _ >>= _) = _
        rw [hq]
        rfl
  · refine Or.inr ⟨?_, nameAt b c i, 1, ?_⟩
    · rintro ⟨q, hpq, hq, -⟩
      exact hstart (Nat.lt_of_le_of_lt hpq hq)
    · rw [Buffer.char, if_neg (hsize_eq ▸ hstart)]
      rfl

/-- **ONE PASS** over the section headers. -/
theorem sectionPass_eq (hv : HeaderOk b) (h : SectionsSpare b c i) (hi : i < b.shnum) :
    sectionPass c (i, b.withData (b.sectionsUpTo c i))
      = if SectionSpans b c i then
          (b.withData (b.sectionsUpTo c i)).refuse c i >>= fun m => .error (.exit m)
        else .ok (.again (i + 1, b.withData (b.sectionsUpTo c (i + 1)))) := by
  obtain ⟨-, -, hoffset_in, -⟩ := hv.fields_inside hi
  have hoffset : num (b.sectionsUpTo c i) (shOffset b.shoff i).off (shOffset b.shoff i).bytes
      = b.val (shOffset b.shoff i) := h.num_of_le hi (Nat.le_refl i)
  have hnext : b.sectionsUpTo c (i + 1) = put (b.sectionsUpTo c i) (shOffset b.shoff i).off
      (shOffset b.shoff i).bytes (c.moved (b.val (shOffset b.shoff i))) := by
    rw [← hoffset]
    rfl
  rw [sectionPass, get_withData (hv.inside eShnum (by decide)),
    shnum_sectionsUpTo h (Nat.le_of_lt hi), if_neg (Nat.ne_of_lt hi), sht_withData,
    get_withData hoffset_in, hoffset, succ_mod hi (shnum_lt b)]
  by_cases hcut : b.val (shOffset b.shoff i) ≥ c.offset
  · rw [if_pos hcut, if_neg fun hspan => Nat.not_le.mpr hspan.1 hcut, hnext, c.moved_of_le hcut,
      set_withData]
  · have hlt := Nat.lt_of_not_le hcut
    have hsame : b.sectionsUpTo c (i + 1) = b.sectionsUpTo c i := by
      rw [hnext, c.moved_of_lt hlt, ← hoffset, put_num]
    obtain ⟨yes, hyes, hspans⟩ := spans_decides (c := c) hv h hi
    rw [if_neg hcut, hyes, hsame]
    cases yes with
    | true => exact (if_pos ⟨hlt, hspans.mp rfl⟩).symm
    | false => exact (if_neg fun hspan => Bool.false_ne_true (hspans.mpr hspan.2)).symm

/-! ## Whole loops -/

/-- What a shift gives with one budget is what it returns. -/
theorem shiftSections_returns {e : ElfInfo} {n : Nat} {r : Except Stop ElfInfo}
    (h : e.shiftSections c n = some r) : Returns (e.shiftSections c) r := by
  refine ⟨n, fun m hm => ?_⟩
  refine andThen_mono (fun _ => id) (fun _ _ => ?_) h
  refine andThen_mono (fun _ hx => run_mono hx hm) (fun _ _ => ?_)
  exact andThen_mono (fun _ hx => run_mono hx hm) (fun _ _ => id)

/-- The first section that spans the cut. -/
def FirstSpan (b : Buffer) (c : Cut) (i : Nat) : Prop :=
  i < b.shnum ∧ SectionSpans b c i ∧ ∀ j, j < i → ¬ SectionSpans b c j

/-- There is one first section. -/
theorem FirstSpan.unique {i' : Nat} (h : FirstSpan b c i) (h' : FirstSpan b c i') : i = i' := by
  rcases Nat.lt_trichotomy i i' with hlt | heq | hlt
  · exact absurd h.2.1 (h'.2.2 i hlt)
  · exact heq
  · exact absurd h'.2.1 (h.2.2 i' hlt)

/-- The first segment that spans the cut. -/
def FirstProgram (b : Buffer) (c : Cut) (i : Nat) : Prop :=
  i < b.phnum ∧ ProgramSpans b c i ∧ ∀ j, j < i → ¬ ProgramSpans b c j

/-- There is one first segment. -/
theorem FirstProgram.unique {i' : Nat} (h : FirstProgram b c i) (h' : FirstProgram b c i') :
    i = i' := by
  rcases Nat.lt_trichotomy i i' with hlt | heq | hlt
  · exact absurd h.2.1 (h'.2.2 i hlt)
  · exact heq
  · exact absurd h'.2.1 (h.2.2 i' hlt)

theorem exists_firstProgram (h : ∃ i, i < b.phnum ∧ ProgramSpans b c i) :
    ∃ i, FirstProgram b c i := by
  obtain ⟨hi, hspans⟩ := Nat.find_spec h
  exact ⟨Nat.find h, hi, hspans, fun j hj hspan => Nat.find_min h hj ⟨by omega, hspan⟩⟩

theorem exists_firstSpan (h : ∃ i, i < b.shnum ∧ SectionSpans b c i) : ∃ i, FirstSpan b c i := by
  obtain ⟨hi, hspans⟩ := Nat.find_spec h
  exact ⟨Nat.find h, hi, hspans, fun j hj hspan => Nat.find_min h hj ⟨by omega, hspan⟩⟩

/-- Without a segment across the cut, the first loop goes to its end. -/
theorem programLoop_ok (hv : HeaderOk b) (h : ProgramsSpare b c b.phnum)
    (hspan : ∀ i, i < b.phnum → ¬ ProgramSpans b c i) :
    Returns (programLoop c b.accepted) (.ok (b.withData (b.sectionsUpTo c 0))) := by
  rw [Buffer.sectionsUpTo_zero]
  refine returns_upto (n := b.phnum) (fun i => (i, b.withData (b.programsUpTo c i))) ?_ ?_
  · intro i hi
    show turn (programPass c _) = _
    rw [programPass_eq hv (h.mono (Nat.le_of_lt hi)) hi, if_neg (hspan i hi)]
    rfl
  · show turn (programPass c _) = _
    rw [programPass, get_withData (hv.inside ePhnum (by decide)),
      phnum_programsUpTo h, if_pos rfl]
    rfl

/-- The first segment that spans the cut ends the loop. -/
theorem programLoop_exit (hv : HeaderOk b) (hfirst : FirstProgram b c i)
    (h : ProgramsSpare b c i) : ∃ m, Returns (programLoop c b.accepted) (.error (.exit m)) := by
  obtain ⟨hi, hspans, hmin⟩ := hfirst
  refine ⟨⟨.program i, refusal, [c.offset, c.diff, b.val (pOffset b.phoff i),
    b.val (pFilesz b.phoff i)]⟩,
    returns_upto (n := i) (fun i => (i, b.withData (b.programsUpTo c i))) ?_ ?_⟩
  · intro j hj
    show turn (programPass c _) = _
    rw [programPass_eq hv (h.mono (Nat.le_of_lt hj)) (by omega), if_neg (hmin j hj)]
    rfl
  · show turn (programPass c _) = _
    rw [programPass_eq hv h hi, if_pos hspans]
    rfl

/-- So does the second, without a section across it. -/
theorem sectionLoop_ok (hv : HeaderOk b) (h : SectionsSpare b c b.shnum)
    (hspan : ∀ i, i < b.shnum → ¬ SectionSpans b c i) :
    Returns (sectionLoop c (b.withData (b.sectionsUpTo c 0)))
      (.ok (b.withData (b.updated c))) := by
  show Returns (sectionLoop c (b.withData (b.sectionsUpTo c 0)))
    (.ok (b.withData (b.sectionsUpTo c b.shnum)))
  refine returns_upto (n := b.shnum) (fun i => (i, b.withData (b.sectionsUpTo c i))) ?_ ?_
  · intro i hi
    show turn (sectionPass c _) = _
    rw [sectionPass_eq hv (h.mono (Nat.le_of_lt hi)) hi, if_neg (hspan i hi)]
    rfl
  · show turn (sectionPass c _) = _
    rw [sectionPass, get_withData (hv.inside eShnum (by decide)),
      shnum_sectionsUpTo h (Nat.le_refl _), if_pos rfl]
    rfl

/-- The first section that spans the cut ends the loop with its message. -/
theorem sectionLoop_stop (hv : HeaderOk b) (hfirst : FirstSpan b c i)
    (h : SectionsSpare b c i) :
    ∃ s, Returns (sectionLoop c (b.withData (b.sectionsUpTo c 0))) (.error s)
      ∧ ((NameReadable b c i ∧ ∃ m, s = .exit m)
        ∨ (¬ NameReadable b c i ∧ ∃ q n, s = .outside q n)) := by
  obtain ⟨hi, hspans, hmin⟩ := hfirst
  have hloop : ∀ s, ((b.withData (b.sectionsUpTo c i)).refuse c i >>= fun m =>
      (Except.error (.exit m) : Except Stop (Turn (Nat × ElfInfo) ElfInfo))) = .error s →
      Returns (sectionLoop c (b.withData (b.sectionsUpTo c 0))) (.error s) := by
    intro s hs
    refine returns_upto (n := i) (fun i => (i, b.withData (b.sectionsUpTo c i))) ?_ ?_
    · intro j hj
      show turn (sectionPass c _) = _
      rw [sectionPass_eq hv (h.mono (Nat.le_of_lt hj)) (by omega), if_neg (hmin j hj)]
      rfl
    · show turn (sectionPass c _) = _
      rw [sectionPass_eq hv h hi, if_pos hspans, hs]
      rfl
  rcases refuse_cases (c := c) hv h hi with ⟨hname, m, hm⟩ | ⟨hname, q, n, hout⟩
  · exact ⟨.exit m, hloop _ (by rw [hm]; rfl), Or.inl ⟨hname, m, rfl⟩⟩
  · exact ⟨.outside q n, hloop _ (by rw [hout]; rfl), Or.inr ⟨hname, q, n, rfl⟩⟩

end ElfInfo

end ElfFile
