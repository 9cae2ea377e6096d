import Cs61.ElfMarked

/-! # The program header of the symbol table

    The search stops at the first segment that ends at the address of the table or
    behind it.  If that one does not hold the table, a header is inserted before it,
    for which there must be room before the contents of the sections; the next
    search stops there and finds it. -/

namespace ElfFile

open ByteFiles Checks

variable {b b' : Buffer} {e e' : ElfInfo} {i k n p s loadaddr : Nat} {r : Range}

/-! ## The search -/

/-- The search goes on behind the `i`th segment. -/
def Passed (b : Buffer) (loadaddr i : Nat) : Prop :=
  (b.val (pVa b.phoff i) + b.val (pFilesz b.phoff i)) % 2 ^ 64 < loadaddr

instance (b : Buffer) (loadaddr i : Nat) : Decidable (Passed b loadaddr i) :=
  inferInstanceAs (Decidable (_ < _))

/-- The `i`th segment holds the table. -/
def HoldsTable (b : Buffer) (loadaddr : Nat) (r : Range) (i : Nat) : Prop :=
  i < b.phnum ∧ b.val (pVa b.phoff i) = loadaddr ∧ b.val (pOffset b.phoff i) = r.first
    ∧ r.size ≤ b.val (pFilesz b.phoff i)

/-- The search stops at `i`. -/
def Stops (b : Buffer) (loadaddr i : Nat) : Prop :=
  i ≤ b.phnum ∧ (∀ k, k < i → Passed b loadaddr k) ∧ (i < b.phnum → ¬ Passed b loadaddr i)

/-- The search stops at one place. -/
theorem Stops.unique {i' : Nat} (h : Stops b loadaddr i) (h' : Stops b loadaddr i') : i = i' := by
  rcases Nat.lt_trichotomy i i' with hlt | heq | hlt
  · exact absurd (h'.2.1 i hlt) (h.2.2 (Nat.lt_of_lt_of_le hlt h'.1))
  · exact heq
  · exact absurd (h.2.1 i' hlt) (h'.2.2 (Nat.lt_of_lt_of_le hlt h.1))

/-- The table has its segment. -/
def HasProgram (b : Buffer) (loadaddr : Nat) (r : Range) : Prop :=
  ∃ i, Stops b loadaddr i ∧ HoldsTable b loadaddr r i

/-- The fields of a program header. -/
theorem program_fields_inside (hv : HeaderOk b) (hi : i < b.phnum) :
    (pVa b.phoff i).off + 8 ≤ b.size ∧ (pFilesz b.phoff i).off + 8 ≤ b.size
      ∧ (pOffset b.phoff i).off + 8 ≤ b.size := by
  have hin := hv.program_inside hi
  simp only [pVa, pFilesz, pOffset, sizeofProgram] at hin ⊢
  omega

namespace Opened

variable (h : Opened e)

include h

/-- The search passes the headers that are of no use. -/
theorem findProgramFrom_gives (loadaddr n i : Nat) (hn : i + n = e.phnum)
    (hbefore : ∀ k, k < i → Passed e.toBuffer loadaddr k) :
    Gives (e.findProgramFrom loadaddr i n) (Stops e.toBuffer loadaddr) := by
  induction n generalizing i with
  | zero => exact Gives.ok ⟨by omega, hbefore, fun hlt => absurd hlt (by omega)⟩
  | succ n ih =>
      have hlt : i < e.phnum := by omega
      obtain ⟨hva, hfilesz, -⟩ := program_fields_inside h.valid.header hlt
      rw [ElfInfo.findProgramFrom, h.pht, Buffer.get_bind hva, Buffer.get_bind hfilesz]
      show Gives (if Passed e.toBuffer loadaddr i then _ else _) _
      split_ifs with hpassed
      · refine ih (i + 1) (by omega) fun k hk => ?_
        rcases Nat.eq_or_lt_of_le (Nat.le_of_lt_succ hk) with rfl | hlt
        · exact hpassed
        · exact hbefore k hlt
      · exact Gives.ok ⟨Nat.le_of_lt hlt, hbefore, fun _ => hpassed⟩

/-- The test whether the header is the one. -/
theorem isProgram_decides (loadaddr : Nat) (r : Range) (hi : i ≤ e.phnum) :
    Decides (e.isProgram i loadaddr r) (HoldsTable e.toBuffer loadaddr r i) := by
  have hok := h.valid.header
  rw [ElfInfo.isProgram, Buffer.get_bind (hok.inside ePhnum (by decide)), h.pht]
  refine (Decides.both (P := i < e.phnum) (Decides.ok ?_) fun hlt => ?_)
  · rw [decide_eq_true_iff]
    exact ⟨fun hne => Nat.lt_of_le_of_ne hi hne, Nat.ne_of_lt⟩
  · obtain ⟨hva, hfilesz, hoffset⟩ := program_fields_inside hok hlt
    exact Decides.both (Buffer.test_decides hva decide_eq_true_iff) fun _ =>
      Decides.both (Buffer.test_decides hoffset decide_eq_true_iff) fun _ =>
        Buffer.test_decides hfilesz decide_eq_true_iff

/-- **A SEGMENT** that holds the table is found. -/
theorem addProgram_found (hprogram : HasProgram e.toBuffer loadaddr r) :
    e.addProgram r loadaddr = .ok e := by
  obtain ⟨i, hstops, hholds⟩ := hprogram
  obtain ⟨i', hfind, hstops'⟩ := h.findProgramFrom_gives loadaddr e.phnum 0 (Nat.zero_add _)
    fun k hk => absurd hk (Nat.not_lt_zero k)
  obtain rfl := hstops'.unique hstops
  obtain ⟨yes, hyes, hiff⟩ := h.isProgram_decides loadaddr r hstops.1
  obtain rfl := hiff.mpr hholds
  rw [ElfInfo.addProgram, Buffer.get_bind (h.valid.header.inside ePhnum (by decide))]
  show (e.findProgramFrom loadaddr 0 e.phnum >>= _) = _
  rw [hfind]
  show (e.isProgram i' loadaddr r >>= _) = _
  rw [hyes]
  rfl

/-! ## Room for a header -/

/-- `first_offset` is before the contents of all sections. -/
theorem firstOffsetFrom_gives (n i o : Nat) (hn : i + n = e.shnum) :
    Gives (e.firstOffsetFrom i o n) fun o' => o' ≤ o ∧ ∀ s, i ≤ s → s < e.shnum →
      FileBacked e.toBuffer s → o' ≤ e.val (shOffset e.shoff s) := by
  have hok := h.valid.header
  induction n generalizing i o with
  | zero => exact Gives.ok ⟨Nat.le_refl o, fun s hs hlt => absurd hlt (by omega)⟩
  | succ n ih =>
      have hlt : i < e.shnum := by omega
      obtain ⟨-, -, hoffset, -⟩ := hok.fields_inside hlt
      obtain ⟨yes, hbacked, hiff⟩ := ElfInfo.fileBacked_decides hok.toTablesOk h.sht hlt
      rw [ElfInfo.firstOffsetFrom, hbacked, h.sht]
      have hnext : ∀ o', (∀ s, i + 1 ≤ s → s < e.shnum → FileBacked e.toBuffer s →
          o' ≤ e.val (shOffset e.shoff s)) → (yes = true → o' ≤ e.val (shOffset e.shoff i)) →
          ∀ s, i ≤ s → s < e.shnum → FileBacked e.toBuffer s →
            o' ≤ e.val (shOffset e.shoff s) := by
        intro o' hrest hfirst s hs hlt' hbacked'
        rcases Nat.eq_or_lt_of_le hs with rfl | hlt''
        · exact hfirst (hiff.mpr hbacked')
        · exact hrest s hlt'' hlt' hbacked'
      cases yes with
      | true =>
          show Gives (e.get _ >>= _) _
          rw [Buffer.get_bind hoffset]
          refine (ih (i + 1) _ (by omega)).mono ?_
          rintro o' ⟨hle, hrest⟩
          exact ⟨Nat.le_trans hle (Nat.min_le_left _ _),
            hnext o' hrest fun _ => Nat.le_trans hle (Nat.min_le_right _ _)⟩
      | false =>
          refine (ih (i + 1) o (by omega)).mono ?_
          rintro o' ⟨hle, hrest⟩
          exact ⟨hle, hnext o' hrest fun h => absurd h Bool.false_ne_true⟩

end Opened

/-- One more program header fits before the contents of the sections and their
    headers. -/
structure Room (b : Buffer) : Prop where
  sections : program b.phoff (b.phnum + 1) ≤ b.shoff
  contents : ∀ s, s < b.shnum → FileBacked b s →
    program b.phoff (b.phnum + 1) ≤ b.val (shOffset b.shoff s)

/-- The program goes on only where there is room. -/
theorem Opened.room (h : Opened e) : Gives e.noRoom fun no => no = false → Room e.toBuffer := by
  have hok := h.valid.header
  obtain ⟨o, ho, -, hcontents⟩ := h.firstOffsetFrom_gives e.shnum 0 (2 ^ 64 - 1) (Nat.zero_add _)
  have hfirst : e.firstOffset = .ok o := by
    rw [ElfInfo.firstOffset, Buffer.get_bind (hok.inside eShnum (by decide))]
    exact ho
  have hphoff := hok.phoff
  have hfits := e.fits
  have hsmall := e.small
  have hphnum := ElfInfo.phnum_lt e.toBuffer
  have hwrap : (e.phoff + (e.phnum + 1) * sizeofProgram) % 2 ^ 64
      = program e.phoff (e.phnum + 1) := by
    rw [Nat.mul_comm]
    refine Nat.mod_eq_of_lt ?_
    simp only [sizeofProgram]
    omega
  have hdecides : Decides e.noRoom (o < program e.phoff (e.phnum + 1) ∨ e.shoff ≤ o) := by
    rw [ElfInfo.noRoom, hfirst]
    show Decides (e.get _ >>= _) _
    rw [Buffer.get_bind (hok.inside ePhoff (by decide)),
      Buffer.get_bind (hok.inside ePhnum (by decide))]
    refine Decides.either (Decides.ok ?_) fun _ =>
      Buffer.test_decides (hok.inside eShoff (by decide)) decide_eq_true_iff
    rw [decide_eq_true_iff, ← hwrap]
    rfl
  obtain ⟨no, hno, hiff⟩ := hdecides
  refine ⟨no, hno, ?_⟩
  rintro rfl
  obtain ⟨hbefore, hafter⟩ := not_or.mp (mt hiff.mpr Bool.false_ne_true)
  refine ⟨by omega, fun s hs hbacked => ?_⟩
  have hle := hcontents s (Nat.zero_le s) hs hbacked
  omega

/-! ## The new header -/

/-- The file with one more program header, before the `i`th. -/
def Buffer.inserted (b : Buffer) (i loadaddr : Nat) (r : Range) : Bytes :=
  (ElfInfo.newProgram b.phoff i loadaddr r).foldl (fun d x => put d x.1.off x.1.bytes x.2)
    (put (move b.data (program b.phoff (i + 1)) (program b.phoff i) ((b.phnum - i) * sizeofProgram))
      ePhnum.off ePhnum.bytes (b.phnum + 1))

/-- A field of the new header is in it. -/
theorem mem_newProgram {pht : Nat} {x : Field × Nat}
    (hx : x ∈ ElfInfo.newProgram pht i loadaddr r) :
    program pht i ≤ x.1.off ∧ x.1.off + x.1.bytes ≤ program pht (i + 1) := by
  simp only [ElfInfo.newProgram, List.mem_cons, List.not_mem_nil, or_false] at hx
  rcases hx with rfl | rfl | rfl | rfl | rfl | rfl | rfl | rfl <;>
    simp only [pType, pFlags, pOffset, pPa, pVa, pFilesz, pMemsz, pAlign, program, sizeofProgram] <;>
    omega

/-- The fields of a new header are apart. -/
theorem newProgram_pairwise (pht i loadaddr : Nat) (r : Range) :
    (ElfInfo.newProgram pht i loadaddr r).Pairwise
      fun x y => y.1.off + y.1.bytes ≤ x.1.off ∨ x.1.off + x.1.bytes ≤ y.1.off := by
  simp only [ElfInfo.newProgram, pType, pFlags, pOffset, pPa, pVa, pFilesz, pMemsz, pAlign,
    List.pairwise_cons, List.mem_cons, List.not_mem_nil, or_false, forall_eq_or_imp, forall_eq,
    List.Pairwise.nil, and_true, false_imp_iff, implies_true]
  omega

section Insert

variable (hi : i ≤ b.phnum) (hheader : sizeofHeader ≤ b.phoff)

include hi hheader

omit hheader in
/-- Only the number of the headers and the headers from the `i`th on are touched. -/
theorem inserted_apart (hp : p < ePhnum.off ∨ ePhnum.off + 2 ≤ p)
    (hp' : p < program b.phoff i ∨ program b.phoff (b.phnum + 1) ≤ p) :
    b.inserted i loadaddr r p = b.data p := by
  have hp : p < ePhnum.off ∨ ePhnum.off + ePhnum.bytes ≤ p := hp
  rw [Buffer.inserted, ElfInfo.foldl_put_of_not_mem, put_of_not_mem _ hp, move, if_neg]
  · simp only [program, sizeofProgram] at hp' ⊢
    omega
  · intro x hx
    obtain ⟨hfirst, hlast⟩ := mem_newProgram hx
    simp only [program, sizeofProgram] at hp' hfirst hlast
    omega

omit hi in
/-- There is one program header more. -/
theorem phnum_inserted (hphnum : b.phnum < 65535) :
    num (b.inserted i loadaddr r) ePhnum.off ePhnum.bytes = b.phnum + 1 := by
  have hput : ∀ d, num (put d ePhnum.off ePhnum.bytes (b.phnum + 1)) ePhnum.off ePhnum.bytes
      = b.phnum + 1 := fun d => num_put (show b.phnum + 1 < 256 ^ 2 by omega)
  refine (num_congr fun k hk => ElfInfo.foldl_put_of_not_mem fun x hx => ?_).trans (hput _)
  obtain ⟨hfirst, -⟩ := mem_newProgram hx
  simp only [ePhnum, sizeofHeader, program] at hk hheader hfirst ⊢
  omega

/-- A header before it. -/
theorem num_inserted_before (hk : k < i) {o w : Nat} (ho : o + w ≤ sizeofProgram) :
    num (b.inserted i loadaddr r) (program b.phoff k + o) w
      = num b.data (program b.phoff k + o) w := by
  refine num_congr fun j hj => inserted_apart hi ?_ (Or.inl ?_)
  · simp only [program, ePhnum, sizeofHeader] at hheader ⊢
    omega
  · simp only [program, sizeofProgram] at ho ⊢
    omega

end Insert

/-- A field of the new header. -/
theorem num_inserted {x : Field} {v : Nat} (hx : (x, v) ∈ ElfInfo.newProgram b.phoff i loadaddr r)
    (hv : v < 256 ^ x.bytes) : num (b.inserted i loadaddr r) x.off x.bytes = v :=
  num_foldl_put hx (newProgram_pairwise _ _ _ _) hv

theorem Room.in_file (hroom : Room b) (hv : HeaderOk b) :
    program b.phoff (b.phnum + 1) ≤ b.size :=
  Nat.le_trans hroom.sections (Nat.le_of_lt hv.shoff)

section InRoom

variable (hv : Valid b) (hlaid : LaidOut b) (hroom : Room b) (hphnum : b.phnum < 65535)
  (hi : i ≤ b.phnum)

include hv hlaid hi

/-- A byte behind the new header. -/
theorem inserted_behind (hp : program b.phoff (b.phnum + 1) ≤ p) :
    b.inserted i loadaddr r p = b.data p := by
  have hpht := (hlaid.regular hv.header).pht
  refine inserted_apart hi (Or.inr ?_) (Or.inr hp)
  simp only [program, ePhnum, sizeofHeader] at hp hpht ⊢
  omega

include hroom

/-- The contents of sections are kept. -/
theorem inserted_contents (hp : Covers b (.contents s) p) :
    b.inserted i loadaddr r p = b.data p := by
  obtain ⟨hs, hbacked, hstart, -⟩ := hp
  exact inserted_behind hv hlaid hi (Nat.le_trans (hroom.contents s hs hbacked) hstart)

/-- The section headers are kept. -/
theorem inserted_entry (s k : Nat) :
    b.inserted i loadaddr r (sect b.shoff s + k) = b.data (sect b.shoff s + k) := by
  refine inserted_behind hv hlaid hi (Nat.le_trans hroom.sections ?_)
  simp only [sect]
  omega

include hphnum

/-- A header is inserted in place. -/
theorem inserted_inPlace (hsym : b.HasSymtab) (hsize : b'.size = b.size)
    (hdata : b'.data = b.inserted i loadaddr r) : InPlace b b' := by
  have hpht := (hlaid.regular hv.header).pht
  have hsections := hroom.sections
  have hcount : b'.phnum = b.phnum + 1 := by
    show num b'.data ePhnum.off ePhnum.bytes = _
    rw [hdata]
    exact phnum_inserted hpht hphnum
  refine ⟨hsize, fun p hp => ?_, ?_, ?_, fun p hp hlast c hc => ?_,
    ⟨id, reordered_id hv hsym fun p hp => ?_⟩⟩
  · rw [hdata]
    cases hp with
    | header hlt hfree =>
        refine inserted_apart hi hfree (Or.inl ?_)
        simp only [program] at hpht ⊢
        omega
    | entry hs hk => exact inserted_entry hv hlaid hroom hi _ _
    | address hs htype hk hk' => exact inserted_entry hv hlaid hroom hi _ _
    | contents hcovers htype hndx => exact inserted_contents hv hlaid hroom hi hcovers
  · rw [hcount]
    exact Nat.succ_ne_zero _
  · rw [hcount]
    exact hroom.in_file hv.header
  · rw [hcount] at hlast
    cases c with
    | header => exact absurd hc (Nat.not_lt.mpr (Nat.le_trans hpht hp))
    | programs => rfl
    | sections => exact absurd hc.1 (by omega)
    | contents s =>
        obtain ⟨hs, hbacked, hstart, -⟩ := hc
        have hafter := hroom.contents s hs hbacked
        omega
  · rw [hdata]
    exact inserted_contents hv hlaid hroom hi hp

omit hroom in
/-- **THE NEW HEADER** is the one that is found. -/
theorem inserted_hasProgram (hdata : b'.data = b.inserted i loadaddr r)
    (hphoff : b'.phoff = b.phoff) (hstops : Stops b loadaddr i)
    (haddr : loadaddr + r.size < 2 ^ 64) (hfirst : r.first < 2 ^ 64) :
    HasProgram b' loadaddr r := by
  have hpht := (hlaid.regular hv.header).pht
  have hcount : b'.phnum = b.phnum + 1 := by
    show num b'.data ePhnum.off ePhnum.bytes = _
    rw [hdata]
    exact phnum_inserted hpht hphnum
  -- the fields that have just been written
  have hfield : ∀ x v, (x, v) ∈ ElfInfo.newProgram b.phoff i loadaddr r → v < 256 ^ x.bytes →
      b'.val x = v := by
    intro x v hx hv
    rw [Buffer.val, hdata]
    exact num_inserted hx hv
  have hva : b'.val (pVa b.phoff i) = loadaddr :=
    hfield (pVa b.phoff i) _ (by simp [ElfInfo.newProgram]) (show loadaddr < 256 ^ 8 by omega)
  have hfilesz : b'.val (pFilesz b.phoff i) = r.size :=
    hfield (pFilesz b.phoff i) _ (by simp [ElfInfo.newProgram]) (show r.size < 256 ^ 8 by omega)
  have hoffset : b'.val (pOffset b.phoff i) = r.first :=
    hfield (pOffset b.phoff i) _ (by simp [ElfInfo.newProgram]) (show r.first < 256 ^ 8 by omega)
  refine ⟨i, ⟨by omega, fun k hk => ?_, fun _ => ?_⟩, by omega, ?_⟩
  · -- no header before it has been changed
    have hpassed := hstops.2.1 k hk
    rw [Passed, hphoff, Buffer.val, Buffer.val, hdata]
    show (num (b.inserted i loadaddr r) (program b.phoff k + 16) 8
      + num (b.inserted i loadaddr r) (program b.phoff k + 32) 8) % 2 ^ 64 < loadaddr
    rw [num_inserted_before hi hpht hk (by decide), num_inserted_before hi hpht hk (by decide)]
    exact hpassed
  · rw [Passed, hphoff, hva, hfilesz, Nat.mod_eq_of_lt haddr]
    omega
  · rw [hphoff, hva, hfilesz, hoffset]
    exact ⟨rfl, rfl, Nat.le_refl _⟩

end InRoom

namespace Cached

variable (h : Cached e) (hlaid : LaidOut e.toBuffer) (hroom : Room e.toBuffer)
  (hphnum : e.phnum < 65535) (hi : i ≤ e.phnum)

include h hlaid hroom hphnum hi

omit hlaid in
/-- A program header is put into a table that has room. -/
theorem insertProgram_eq : e.insertProgram i loadaddr r
    = .ok (ElfInfo.touched { e with data := e.inserted i loadaddr r }) := by
  have hok := h.valid.header
  have hend := hroom.in_file hok
  have hcount : ePhnum.off + ePhnum.bytes ≤ e.size := hok.inside ePhnum (by decide)
  have hlen : (e.phnum - i) * sizeofProgram + sizeofProgram * i = sizeofProgram * e.phnum := by
    rw [Nat.mul_comm, ← Nat.mul_add, Nat.sub_add_cancel hi]
  have hsrc : program e.phoff i + (e.phnum - i) * sizeofProgram ≤ e.size := by
    simp only [program, sizeofProgram] at hend hlen ⊢
    omega
  have hdst : program e.phoff (i + 1) + (e.phnum - i) * sizeofProgram ≤ e.size := by
    simp only [program, sizeofProgram] at hend hlen ⊢
    omega
  let moved : ElfInfo := { e with
    data := move e.data (program e.phoff (i + 1)) (program e.phoff i)
      ((e.phnum - i) * sizeofProgram) }
  have hstore := ElfInfo.storeAll_ok (e := moved.set ePhnum (e.phnum + 1))
    (l := ElfInfo.newProgram e.phoff i loadaddr r) fun x hx => by
      obtain ⟨-, hlast⟩ := mem_newProgram hx
      show x.1.off + x.1.bytes ≤ e.size
      simp only [program, sizeofProgram] at hend hlast
      omega
  have hmove : e.moveBytes (program e.phoff (i + 1)) (program e.phoff i)
      ((e.phnum - i) * sizeofProgram) = .ok moved := if_pos ⟨hsrc, hdst⟩
  have hcounted : moved.store ePhnum ((e.phnum + 1) % 2 ^ 16) = .ok (moved.set ePhnum (e.phnum + 1)) := by
    rw [Nat.mod_eq_of_lt (by omega)]
    exact if_pos hcount
  have hpht : (moved.set ePhnum (e.phnum + 1)).pht = e.phoff := h.pht
  rw [ElfInfo.insertProgram, Buffer.get_bind hcount]
  show (e.moveBytes (program e.pht (i + 1)) (program e.pht i) ((e.phnum - i) * sizeofProgram)
    >>= _) = _
  conv_lhs => rw [h.pht, hmove]
  show (moved.store ePhnum ((e.phnum + 1) % 2 ^ 16) >>= _) = _
  rw [hcounted]
  show ((moved.set ePhnum (e.phnum + 1)).storeAll
    (ElfInfo.newProgram (moved.set ePhnum (e.phnum + 1)).pht i loadaddr r) >>= _) = _
  rw [hpht, hstore]
  rfl

/-- **A HEADER** is inserted. -/
theorem inserts (hstops : Stops e.toBuffer loadaddr i) (haddr : loadaddr + r.size < 2 ^ 64)
    (hfirst : r.first < 2 ^ 64) :
    ∃ e', e.insertProgram i loadaddr r = .ok e' ∧ Edited e e' ∧ HasProgram e'.toBuffer loadaddr r
      ∧ (∀ s, s < e.shnum → Marked e.toBuffer s → Marked e'.toBuffer s)
      ∧ (e.InOrder → e'.InOrder) := by
  have hv := h.valid
  have hplace : InPlace e.toBuffer
      (ElfInfo.touched { e with data := e.inserted i loadaddr r }).toBuffer :=
    inserted_inPlace hv hlaid hroom hphnum hi h.symtab rfl rfl
  have hcontents : ∀ s p, Covers e.toBuffer (.contents s) p →
      e.inserted i loadaddr r p = e.data p := fun _ _ hp => inserted_contents hv hlaid hroom hi hp
  refine ⟨_, h.insertProgram_eq hroom hphnum hi, ⟨hplace, fun s p hp _ => hcontents s p hp,
    rfl, rfl, rfl, rfl, fun hchanged => Bool.noConfusion hchanged⟩,
    inserted_hasProgram hv hlaid hphnum hi rfl hplace.phoff hstops haddr hfirst, fun s _ => ?_,
    inOrder_same hplace hv h.symtab fun p hp => hcontents _ p hp⟩
  have hflags : num (e.inserted i loadaddr r) (sect e.shoff s + 8) 8
      = num e.data (sect e.shoff s + 8) 8 :=
    num_congr fun k _ => by
      rw [Nat.add_assoc]
      exact inserted_entry hv hlaid hroom hi s (8 + k)
  rw [Marked, Marked, hplace.shoff]
  show num e.data (sect e.shoff s + 8) 8 &&& shfAlloc ≠ 0 → _
  rw [← hflags]
  exact id

omit hroom hi in
/-- **A PROGRAM HEADER** is found or inserted, where the program goes on. -/
theorem addProgram_ok (haddr : loadaddr + r.size < 2 ^ 64) (hfirst : r.first < 2 ^ 64)
    (hok : e.addProgram r loadaddr = .ok e') :
    Edited e e' ∧ HasProgram e'.toBuffer loadaddr r
      ∧ (∀ s, s < e.shnum → Marked e.toBuffer s → Marked e'.toBuffer s)
      ∧ (e.InOrder → e'.InOrder) := by
  obtain ⟨i, hfind, hstops⟩ := h.findProgramFrom_gives loadaddr e.phnum 0 (Nat.zero_add _)
    fun k hk => absurd hk (Nat.not_lt_zero k)
  obtain ⟨found, hfound, hiff⟩ := h.isProgram_decides loadaddr r hstops.1
  rw [ElfInfo.addProgram, Buffer.get_bind (h.valid.header.inside ePhnum (by decide))] at hok
  obtain ⟨i', hfind', hok⟩ := ok_of_bind hok
  obtain rfl := Except.ok.inj (hfind.symm.trans hfind')
  obtain ⟨found', hfound', hok⟩ := ok_of_bind hok
  obtain rfl := Except.ok.inj (hfound.symm.trans hfound')
  cases found with
  | true =>
      obtain rfl := Except.ok.inj hok
      exact ⟨Edited.refl h hlaid, ⟨i, hstops, hiff.mp rfl⟩, fun _ _ => id, id⟩
  | false =>
      -- no segment holds the table: the program goes on only where there is room
      obtain ⟨no, hno, hroom⟩ := h.room
      obtain ⟨no', hno', hok⟩ := ok_of_bind (show (e.noRoom >>= fun no =>
        if no then _ else e.insertProgram i loadaddr r) = .ok e' from hok)
      obtain rfl := Except.ok.inj (hno.symm.trans hno')
      cases no with
      | true => cases hok
      | false =>
          obtain ⟨e₁, hinsert, hinserted⟩ :=
            h.inserts hlaid (hroom rfl) hphnum hstops.1 hstops haddr hfirst
          obtain rfl := Except.ok.inj (hinsert.symm.trans hok)
          exact hinserted

end Cached

end ElfFile
