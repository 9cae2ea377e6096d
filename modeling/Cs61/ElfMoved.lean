import Cs61.ElfShift

/-! # What `shift_sections` leaves

    As long as no offset that is raised is also a byte of the header or of the other
    table, a shift leaves the file as it was but for the gap and the offsets, with
    one exception: of a section header table that lies across the cut the part
    behind the cut is moved, and `e_shoff` is not updated (`Torn`). -/

namespace ElfFile

open ByteFiles Checks LoopRules

/-! ## Opening the gap -/

/-- The buffer that is needed is larger than any can be. -/
def TooLarge (b : Buffer) (c : Cut) : Prop :=
  b.capacity < b.size + c.diff ∧ 2 ^ 63 ≤ max (b.size + c.diff) (b.capacity + 32768)

instance (b : Buffer) (c : Cut) : Decidable (TooLarge b c) := inferInstanceAs (Decidable (_ ∧ _))

/-- The file that a shift leaves. -/
def Buffer.shifted (b : Buffer) (c : Cut) : Bytes :=
  put (openGap (b.updated c) b.size c.offset c.diff) eShoff.off eShoff.bytes (c.moved b.shoff)

namespace ElfInfo

variable {b : Buffer} {c : Cut} {e : ElfInfo} {n : Nat}

/-- `grow` leaves what is in the file. -/
theorem grow_ok (hheader : sizeofHeader ≤ e.size)
    (hroom : n ≤ e.capacity ∨ max n (e.capacity + 32768) < 2 ^ 63) :
    ∃ e', e.grow n = .ok e' ∧ e'.data = e.data ∧ e'.size = e.size ∧ n ≤ e'.capacity := by
  rw [grow]
  by_cases hneed : e.capacity < n
  · have hsmall := hroom.resolve_left (Nat.not_le.mpr hneed)
    rw [if_pos hneed, dif_pos hsmall]
    let r := e.realloc (max n (e.capacity + 32768))
      (Nat.le_trans (Nat.le_trans e.fits (Nat.le_add_right _ _)) (Nat.le_max_right _ _)) hsmall
    have hlocate : r.locate = .ok { r with pht := r.phoff, sht := r.shoff } := locate_ok hheader
    by_cases hok : e.ok = true
    · refine ⟨{ r with pht := r.phoff, sht := r.shoff, cache := none }, ?_, rfl, rfl,
        Nat.le_max_left n _⟩
      show (if r.ok = true then r.locate >>= _ else _) = _
      rw [if_pos (show r.ok = true from hok), hlocate]
      rfl
    · exact ⟨r, if_neg hok, rfl, rfl, Nat.le_max_left n _⟩
  · exact ⟨e, if_neg hneed, rfl, rfl, Nat.le_of_not_lt hneed⟩

/-- There is no memory for the larger buffer. -/
theorem grow_badAlloc (hneed : e.capacity < n) (hlarge : 2 ^ 63 ≤ max n (e.capacity + 32768)) :
    e.grow n = .error .badAlloc := by
  rw [grow, if_pos hneed, dif_neg (Nat.not_lt.mpr hlarge)]

/-- The bytes behind the cut are moved. -/
theorem moveData_ok (h : e.size + c.diff ≤ e.capacity) :
    ∃ e', e.moveData c = .ok e' ∧ e'.data = openGap e.data e.size c.offset c.diff
      ∧ e'.size = e.size + c.diff :=
  ⟨_, dif_pos h, rfl, rfl⟩

/-- `e_shoff` is raised if the table is moved. -/
theorem updateShoff_ok (hheader : sizeofHeader ≤ e.size) :
    ∃ e', e.updateShoff c = .ok e' ∧ e'.size = e.size
      ∧ e'.data = put e.data eShoff.off eShoff.bytes (c.moved e.shoff) := by
  have hin : eShoff.off + eShoff.bytes ≤ e.size :=
    Nat.le_trans (show InHeader eShoff by decide) hheader
  rw [updateShoff, Buffer.get_bind hin]
  by_cases hcut : e.shoff ≥ c.offset
  · rw [if_pos (show e.val eShoff ≥ c.offset from hcut), c.moved_of_le hcut]
    let r := e.set eShoff ((e.shoff + c.diff) % 2 ^ 64)
    refine ⟨{ r with sht := r.val eShoff }, ?_, rfl, rfl⟩
    show (r.get eShoff >>= _) = _
    rw [Buffer.get_bind (show eShoff.off + eShoff.bytes ≤ r.size from hin)]
    rfl
  · rw [if_neg (show ¬ e.val eShoff ≥ c.offset from hcut),
      c.moved_of_lt (Nat.lt_of_not_le hcut)]
    exact ⟨e, rfl, rfl, (put_num e.data eShoff.off eShoff.bytes).symm⟩

/-- A field of the header, when the gap is open. -/
theorem num_openGap_header {x : Field} (h : Unshared b c) (hx : InHeader x) :
    num (openGap (b.updated c) b.size c.offset c.diff) x.off x.bytes = b.val x := by
  have hx' : x.off + x.bytes ≤ sizeofHeader := hx
  have hcut := h.cut
  rw [← h.num_header (Nat.le_refl _) hx]
  exact num_congr fun k hk => openGap_below (by omega)

/-- **THE GAP** is opened, unless there is no memory for it. -/
theorem insertGap_cases (hv : HeaderOk b) (h : Unshared b c) :
    (TooLarge b c ∧ (b.withData (b.updated c)).insertGap c = .error .badAlloc)
      ∨ (¬ TooLarge b c ∧ ∃ e, (b.withData (b.updated c)).insertGap c = .ok e
        ∧ e.data = b.shifted c ∧ e.size = b.size + c.diff) := by
  have hfits := b.fits
  have hsmall := b.small
  have hdiff := c.small
  have hsize : ((b.withData (b.updated c)).size + c.diff) % 2 ^ 64 = b.size + c.diff :=
    Nat.mod_eq_of_lt (show b.size + c.diff < 2 ^ 64 by omega)
  rw [insertGap, hsize]
  -- the vector has room, gets it, or fails
  by_cases hlarge : TooLarge b c
  · refine Or.inl ⟨hlarge, ?_⟩
    rw [grow_badAlloc (e := b.withData (b.updated c)) hlarge.1 hlarge.2]
    rfl
  · have hroom : b.size + c.diff ≤ b.capacity
        ∨ max (b.size + c.diff) (b.capacity + 32768) < 2 ^ 63 := by
      by_contra hno
      obtain ⟨hneed, hmax⟩ := not_or.mp hno
      exact hlarge ⟨Nat.lt_of_not_le hneed, Nat.le_of_not_lt hmax⟩
    obtain ⟨e₁, hgrow, hdata₁, hsize₁, hcap₁⟩ :=
      grow_ok (e := b.withData (b.updated c)) hv.header hroom
    have hsize₁ : e₁.size = b.size := hsize₁
    have hdata₁ : e₁.data = b.updated c := hdata₁
    -- the contents move, and then the offset of the sections
    obtain ⟨e₂, hmove, hdata₂, hsize₂⟩ := moveData_ok (e := e₁) (c := c) (by omega)
    have hheader := hv.header
    obtain ⟨e₃, hupdate, hsize₃, hdata₃⟩ := updateShoff_ok (e := e₂) (c := c) (by omega)
    have hshoff : e₂.shoff = b.shoff := by
      show num e₂.data eShoff.off eShoff.bytes = _
      rw [hdata₂, hdata₁, hsize₁]
      exact num_openGap_header h (by decide)
    refine Or.inr ⟨hlarge, e₃, ?_, ?_, by omega⟩
    · rw [hgrow]
      show (e₁.moveData c >>= _) = _
      rw [hmove]
      exact hupdate
    · rw [hdata₃, hshoff, hdata₂, hdata₁, hsize₁]
      rfl

end ElfInfo

/-! ## What a shift is for -/

/-- An entry of a table, with its offset at `off`, is the old one with the offset
    moved. -/
structure EntryMoved (c : Cut) (old new : Bytes) (a a' off len : Nat) : Prop where
  offset : num new (a' + off) 8 = c.moved (num old (a + off) 8)
  rest : ∀ k, k < len → (k < off ∨ off + 8 ≤ k) → new (a' + k) = old (a + k)

/-- A byte of the file that holds an offset. -/
def IsOffset (b : Buffer) (p : Nat) : Prop :=
  (eShoff.off ≤ p ∧ p < eShoff.off + 8) ∨ OffsetByte b p

/-- The bytes of the file in a range, except offsets, are at its new place. -/
def SameBytes (b : Buffer) (c : Cut) (new : Bytes) (a n : Nat) : Prop :=
  ∀ k, k < n → a + k < b.size → ¬ IsOffset b (a + k) → new (c.moved a + k) = b.data (a + k)

/-- What a shift should leave of `b`. -/
structure Shifted (b : Buffer) (c : Cut) (b' : Buffer) : Prop where
  size : b'.size = b.size + c.diff
  gap : ∀ p, c.offset ≤ p → p < c.offset + c.diff → b'.data p = 0
  shoff : b'.shoff = c.moved b.shoff
  header : ∀ p, p < sizeofHeader → (p < eShoff.off ∨ eShoff.off + 8 ≤ p) → b'.data p = b.data p
  programs : ∀ i, i < b.phnum →
    EntryMoved c b.data b'.data (program b.phoff i) (program b'.phoff i) 8 sizeofProgram
  sections : ∀ i, i < b.shnum →
    EntryMoved c b.data b'.data (sect b.shoff i) (sect b'.shoff i) 24 sizeofSection
  segmentBytes : ∀ i, i < b.phnum →
    b.val (pOffset b.phoff i) + b.val (pFilesz b.phoff i) < 2 ^ 64 →
    SameBytes b c b'.data (b.val (pOffset b.phoff i)) (b.val (pFilesz b.phoff i))
  sectionBytes : ∀ i, i < b.shnum → FileBacked b i →
    SameBytes b c b'.data (b.val (shOffset b.shoff i)) (b.val (shSize b.shoff i))

/-- The part of the section header table behind the cut is not all zero, while the
    table starts before it. -/
def Torn (b : Buffer) (c : Cut) : Prop :=
  b.shoff < c.offset ∧ ∃ p, c.offset ≤ p ∧ p < sect b.shoff b.shnum ∧ b.updated c p ≠ 0

namespace EntryMoved

variable {c : Cut} {old new new' : Bytes} {a a' a'' off len k : Nat}

/-- The same entry elsewhere. -/
theorem congr (h : EntryMoved c old new a a' off len) (hoff : off + 8 ≤ len)
    (hsame : ∀ k, k < len → new' (a'' + k) = new (a' + k)) :
    EntryMoved c old new' a a'' off len where
  offset := by
    rw [← h.offset]
    refine num_congr fun j hj => ?_
    rw [Nat.add_assoc, Nat.add_assoc]
    exact hsame (off + j) (by omega)
  rest := fun k hk hrest => (hsame k hk).trans (h.rest k hk hrest)

/-- The old entry and the cut determine the new one. -/
theorem unique (h : EntryMoved c old new a a' off len) (h' : EntryMoved c old new' a a'' off len)
    (hk : k < len) : new (a' + k) = new' (a'' + k) := by
  by_cases hrest : k < off ∨ off + 8 ≤ k
  · rw [h.rest k hk hrest, h'.rest k hk hrest]
  · have hbyte := bytes_eq (h.offset.trans h'.offset.symm) (k := k - off) (by omega)
    rwa [Nat.add_assoc, Nat.add_assoc, Nat.add_sub_cancel' (by omega)] at hbyte

end EntryMoved

namespace Buffer

variable {b : Buffer} {c : Cut} {p i : Nat}

/-- The file below the cut. -/
theorem shifted_below (hp : p < c.offset) (hshoff : p < eShoff.off ∨ eShoff.off + 8 ≤ p) :
    b.shifted c p = b.updated c p :=
  (put_of_not_mem _ hshoff).trans (openGap_below hp)

/-- The gap is zero. -/
theorem shifted_gap (hcut : sizeofHeader ≤ c.offset) (hp : c.offset ≤ p)
    (hp' : p < c.offset + c.diff) : b.shifted c p = 0 := by
  have hheader : eShoff.off + eShoff.bytes ≤ c.offset :=
    Nat.le_trans (show InHeader eShoff by decide) hcut
  rw [shifted, put_of_not_mem _ (Or.inr (by omega))]
  exact openGap_gap hp hp'

/-- The file behind the cut. -/
theorem shifted_above (hcut : sizeofHeader ≤ c.offset) (hp : c.offset ≤ p) (hp' : p < b.size) :
    b.shifted c (p + c.diff) = b.updated c p := by
  have hheader : eShoff.off + eShoff.bytes ≤ c.offset :=
    Nat.le_trans (show InHeader eShoff by decide) hcut
  rw [shifted, put_of_not_mem _ (Or.inr (by omega))]
  exact openGap_above hp hp'

/-- The file below the cut, when the section header table stays where it is. -/
theorem shifted_stays (h : Unshared b c) (hbelow : b.shoff < c.offset) (hp : p < c.offset) :
    b.shifted c p = b.updated c p := by
  -- `e_shoff` is written over itself
  have hsame : num (openGap (b.updated c) b.size c.offset c.diff) eShoff.off eShoff.bytes
      = c.moved b.shoff := by
    rw [ElfInfo.num_openGap_header h (by decide), c.moved_of_lt hbelow]
    rfl
  rw [shifted, ← hsame, put_num]
  exact openGap_below hp

/-- The program header table is as the loops left it. -/
theorem shifted_programs (h : Unshared b c) (hfirst : b.phoff ≤ p)
    (hlast : p < program b.phoff b.phnum) (hp : p < c.offset) :
    b.shifted c p = b.updated c p := by
  by_cases hshoff : eShoff.off ≤ p ∧ p < eShoff.off + eShoff.bytes
  · have hheader : eShoff.off + eShoff.bytes ≤ sizeofHeader := by decide
    rw [shifted, put_of_mem _ b.data _ hshoff.1 hshoff.2, h.shoff p hfirst hlast]
    exact (h.header_same (Nat.le_refl _) (by omega)).symm
  · have hbytes : eShoff.bytes = 8 := rfl
    exact shifted_below hp (by omega)

/-- An updated section header. -/
theorem entryMoved_section (h : Unshared b c) (hi : i < b.shnum) :
    EntryMoved c b.data (b.updated c) (sect b.shoff i) (sect b.shoff i) 24 sizeofSection where
  offset := h.num_moved hi hi
  rest := fun k hk hoff => h.section_same (Nat.le_refl _) hi hk (by omega)

/-- An updated program header. -/
theorem entryMoved_program (h : Unshared b c) (hi : i < b.phnum) :
    EntryMoved c b.data (b.updated c) (program b.phoff i) (program b.phoff i) 8 sizeofProgram where
  offset := h.num_pOffset hi
  rest := fun k hk hoff => h.program_rest hi hk (by omega)

/-- The bytes of a range that does not lie across the cut. -/
theorem sameBytes {a n : Nat} (hcut : sizeofHeader ≤ c.offset)
    (hspan : a < c.offset → a + n ≤ c.offset) (hb : b.size + c.diff < 2 ^ 64) :
    SameBytes b c (b.shifted c) a n := by
  intro k hk hsize hfree
  obtain ⟨hshoff, hoffset⟩ := not_or.mp hfree
  rw [← sectionsUpTo_free (c := c) (Nat.le_refl _) hoffset]
  by_cases hbelow : a < c.offset
  · rw [c.moved_of_lt hbelow]
    exact shifted_below (by omega) (by omega)
  · rw [c.moved_of_le (Nat.le_of_not_lt hbelow), Nat.mod_eq_of_lt (by omega),
      show a + c.diff + k = a + k + c.diff by omega]
    exact shifted_above hcut (by omega) hsize

/-! ## The section header table -/

/-- A byte of an entry is a byte of the table. -/
theorem sect_lt {k : Nat} (hi : i < b.shnum) (hk : k < sizeofSection) :
    b.shoff ≤ sect b.shoff i + k ∧ sect b.shoff i + k < sect b.shoff b.shnum := by
  simp only [sect, sizeofSection] at hk ⊢
  omega

/-- The table is found at the new `e_shoff`, unless it is torn. -/
theorem shifted_section (hv : HeaderOk b) (h : Unshared b c) (htorn : ¬ Torn b c)
    (hb : b.size + c.diff < 2 ^ 64) (hi : i < b.shnum) :
    EntryMoved c b.data (b.shifted c) (sect b.shoff i) (sect (c.moved b.shoff) i) 24
      sizeofSection := by
  have hinside := hv.section_inside hi
  have hcut := h.cut
  refine (entryMoved_section h hi).congr (by decide) fun k hk => ?_
  obtain ⟨hfirst, hlast⟩ := sect_lt hi hk
  by_cases hbelow : b.shoff < c.offset
  · rw [c.moved_of_lt hbelow]
    by_cases hp : sect b.shoff i + k < c.offset
    · exact shifted_stays h hbelow hp
    -- behind the cut everything is zero, before the shift and after it
    have hzero : ∀ p, c.offset ≤ p → p < sect b.shoff b.shnum → b.updated c p = 0 :=
      fun p hcp hpn => by_contra fun hne => htorn ⟨hbelow, p, hcp, hpn, hne⟩
    rw [hzero _ (Nat.le_of_not_lt hp) hlast]
    by_cases hgap : sect b.shoff i + k < c.offset + c.diff
    · exact shifted_gap hcut (Nat.le_of_not_lt hp) hgap
    · have habove := shifted_above (b := b) hcut (p := sect b.shoff i + k - c.diff) (by omega)
        (by omega)
      rwa [Nat.sub_add_cancel (by omega), hzero _ (by omega) (by omega)] at habove
  · have hoff := hv.shoff
    have hmoved : sect (c.moved b.shoff) i + k = sect b.shoff i + k + c.diff := by
      rw [c.moved_of_le (Nat.le_of_not_lt hbelow), Nat.mod_eq_of_lt (by omega)]
      simp only [sect]
      omega
    rw [hmoved]
    exact shifted_above hcut (by omega) (by omega)

/-- Of a torn table a part is not found there. -/
theorem not_shifted_of_torn (hv : HeaderOk b) (h : Unshared b c) (htorn : Torn b c)
    (hall : ∀ i, i < b.shnum → EntryMoved c b.data (b.shifted c) (sect b.shoff i)
      (sect (c.moved b.shoff) i) 24 sizeofSection) : False := by
  obtain ⟨hbelow, p, hcp, hpn, hne⟩ := htorn
  have hcut := h.cut
  have hsame : ∀ p, b.shoff ≤ p → p < sect b.shoff b.shnum → b.shifted c p = b.updated c p := by
    intro p hfirst hlast
    have hentry : (p - b.shoff) / 64 < b.shnum := by
      simp only [sect, sizeofSection] at hlast
      omega
    have hunique := (hall _ hentry).unique (entryMoved_section h hentry)
      (k := (p - b.shoff) % 64) (Nat.mod_lt _ (by decide))
    have hp : sect b.shoff ((p - b.shoff) / 64) + (p - b.shoff) % 64 = p := by
      simp only [sect, sizeofSection]
      omega
    rw [c.moved_of_lt hbelow, hp] at hunique
    exact hunique
  have hend := hv.sections_inside
  have hzero : ∀ p, c.offset ≤ p → p < sect b.shoff b.shnum → b.updated c p = 0 := by
    intro p
    induction p using Nat.strongRecOn with
    | _ p ih =>
        intro hcp hpn
        rw [← hsame p (by omega) hpn]
        by_cases hgap : p < c.offset + c.diff
        · exact shifted_gap hcut hcp hgap
        · have hpos := c.pos
          have habove := shifted_above (b := b) hcut (p := p - c.diff) (by omega) (by omega)
          rwa [Nat.sub_add_cancel (by omega), ih _ (by omega) (by omega) (by omega)] at habove
  exact hne (hzero p hcp hpn)

end Buffer

/-! ## Every shift -/

/-- The program ends with an error of its own. -/
def Stop.IsExit : Stop → Prop
  | .exit _ => True
  | .badAlloc => True
  | _ => False

/-- An error, or the shifted file. -/
def Correct (b : Buffer) (c : Cut) : Except Stop ElfInfo → Prop
  | .error s => s.IsExit
  | .ok e => Shifted b c e.toBuffer

/-- `shift_sections` ends correctly. -/
def ShiftCorrect (b : Buffer) (c : Cut) (e : ElfInfo) : Prop :=
  ∃ r, Returns (e.shiftSections c) r ∧ Correct b c r

/-- Which shifts end correctly: those that are refused because of the program
    header table or of a segment; those that are refused because of a section whose
    name is still found; those for which there is no memory; and those that do not
    tear the section header table. -/
def Handled (b : Buffer) (c : Cut) : Prop :=
  c.offset ≤ program b.phoff b.phnum ∨ (∃ i, i < b.phnum ∧ ProgramSpans b c i)
    ∨ (∃ i, ElfInfo.FirstSpan b c i ∧ ElfInfo.NameReadable b c i)
    ∨ ((∀ i, i < b.shnum → ¬ SectionSpans b c i) ∧ (TooLarge b c ∨ ¬ Torn b c))

section Shifts

variable {b : Buffer} {c : Cut}

/-- A call has one result. -/
theorem shift_of_result {e : ElfInfo} {r : Except Stop ElfInfo} (h : Returns (e.shiftSections c) r) :
    ShiftCorrect b c e ↔ Correct b c r := by
  refine ⟨?_, fun hr => ⟨r, h, hr⟩⟩
  rintro ⟨r', h', hr'⟩
  rwa [h.unique h']

/-- The end of the program header table. -/
theorem checkCut_eq (hv : HeaderOk b) (hoffset : c.offset < b.size) :
    b.accepted.checkCut c = if c.offset ≤ program b.phoff b.phnum then
      .error (.exit ⟨.file, "program header spans alignment boundary", []⟩) else .ok () := by
  have hend := hv.programs_inside
  have hfits := b.fits
  have hsmall := b.small
  have hwrap : (b.phoff + b.phnum * sizeofProgram) % 2 ^ 64 = program b.phoff b.phnum := by
    rw [Nat.mul_comm]
    exact Nat.mod_eq_of_lt (show program b.phoff b.phnum < 2 ^ 64 by omega)
  rw [ElfInfo.checkCut, if_pos (show c.offset < b.accepted.size from hoffset),
    Buffer.get_bind (b := b.accepted.toBuffer) (hv.inside ePhoff (by decide)),
    Buffer.get_bind (b := b.accepted.toBuffer) (hv.inside ePhnum (by decide))]
  show (if (b.phoff + b.phnum * sizeofProgram) % 2 ^ 64 ≥ c.offset then _ else _) = _
  rw [hwrap]

/-- What is left when no section spans the cut. -/
theorem shifted_iff (hv : Valid b) (h : Unshared b c) (hcut : program b.phoff b.phnum < c.offset)
    (hprograms : ∀ i, i < b.phnum → ¬ ProgramSpans b c i)
    (hsections : ∀ i, i < b.shnum → ¬ SectionSpans b c i) {b' : Buffer}
    (hdata : b'.data = b.shifted c) (hsize : b'.size = b.size + c.diff) :
    Shifted b c b' ↔ ¬ Torn b c := by
  have hfits := b.fits
  have hsmall := b.small
  have hdiff := c.small
  have hb : b.size + c.diff < 2 ^ 64 := by omega
  have hheader := h.cut
  have hshoff : b'.shoff = c.moved b.shoff := by
    show num b'.data eShoff.off eShoff.bytes = _
    rw [hdata]
    exact num_put (c.moved_lt (num_lt b.data eShoff.off 8))
  constructor
  · -- A torn section header is read partly from the gap.
    intro hshifted htorn
    refine Buffer.not_shifted_of_torn hv.header h htorn fun i hi => ?_
    have hentry := hshifted.sections i hi
    rwa [hdata, hshoff] at hentry
  · intro htorn
    -- The header stays where it is, but for the offset of the sections,
    have hbelow : ∀ p, p < sizeofHeader → (p < eShoff.off ∨ eShoff.off + 8 ≤ p) →
        b'.data p = b.data p := by
      intro p hp hfree
      rw [hdata, Buffer.shifted_below (by omega) hfree]
      exact h.header_same (Nat.le_refl _) hp
    have hphoff : b'.phoff = b.phoff := by
      refine num_congr fun k hk => ?_
      simp only [ePhoff] at hk ⊢
      exact hbelow _ (by simp only [sizeofHeader]; omega) (by simp only [eShoff]; omega)
    refine ⟨hsize, ?_, hshoff, hbelow, ?_, ?_, ?_, ?_⟩
    · intro p hp hp'
      rw [hdata]
      exact Buffer.shifted_gap hheader hp hp'
    · -- the program headers stay below the cut,
      intro i hi
      rw [hdata, hphoff]
      refine (Buffer.entryMoved_program h hi).congr (by decide) fun k hk => ?_
      refine Buffer.shifted_programs h ?_ ?_ ?_ <;>
        simp only [program, sizeofProgram] at hcut hk ⊢ <;> omega
    · -- the section headers move as a whole,
      intro i hi
      rw [hdata, hshoff]
      exact Buffer.shifted_section hv.header h htorn hb hi
    · -- and so do the contents of both, since nothing spans the cut.
      intro i hi hend
      rw [hdata]
      refine Buffer.sameBytes hheader (fun hlt => ?_) hb
      by_contra hspan
      refine hprograms i hi ⟨hlt, ?_⟩
      rw [Nat.mod_eq_of_lt hend]
      omega
    · intro i hi hbacked
      obtain ⟨-, hlen⟩ := hv.contents_inside hi hbacked
      rw [hdata]
      refine Buffer.sameBytes hheader (fun hlt => ?_) hb
      by_contra hspan
      refine hsections i hi ⟨hlt, hbacked, ?_⟩
      rw [Nat.mod_eq_of_lt (by omega)]
      omega

/-- A shift that is not refused at once goes through the loops. -/
theorem shift_loops (hv : HeaderOk b) (hoffset : c.offset < b.size)
    (hcut : ¬ c.offset ≤ program b.phoff b.phnum) {r : Except Stop ElfInfo}
    (hr : Returns (fun n => andThen (ElfInfo.programLoop c b.accepted n) fun e =>
      andThen (ElfInfo.sectionLoop c e n) fun e => some (e.insertGap c)) r) :
    Returns (b.accepted.shiftSections c) r := by
  have hcheck := checkCut_eq hv hoffset
  rw [if_neg hcut] at hcheck
  have hpure : Returns (fun _ => some (b.accepted.checkCut c)) (.ok ()) := by
    rw [hcheck]
    exact Returns.pure _
  exact andThen_returns hpure hr

/-- A shift that no loop refuses ends with the gap. -/
theorem shift_insert (hv : HeaderOk b) (h : Unshared b c) (hoffset : c.offset < b.size)
    (hcut : ¬ c.offset ≤ program b.phoff b.phnum)
    (hprograms : ∀ i, i < b.phnum → ¬ ProgramSpans b c i)
    (hsections : ∀ i, i < b.shnum → ¬ SectionSpans b c i) {r : Except Stop ElfInfo}
    (hr : (b.withData (b.updated c)).insertGap c = r) :
    Returns (b.accepted.shiftSections c) r := by
  refine shift_loops hv hoffset hcut (andThen_returns
    (ElfInfo.programLoop_ok hv h.programs hprograms)
    (andThen_returns (ElfInfo.sectionLoop_ok hv h.toSectionsSpare hsections) ?_))
  rw [hr]
  exact Returns.pure r

/-- The end of the program header table is before the cut, or the shift is refused
    at once. -/
theorem shift_refused (hv : HeaderOk b) (hoffset : c.offset < b.size)
    (hcut : c.offset ≤ program b.phoff b.phnum) :
    ∃ m, Returns (b.accepted.shiftSections c) (.error (.exit m)) := by
  have hcheck := checkCut_eq hv hoffset
  rw [if_pos hcut] at hcheck
  have hexit : Returns (fun _ => some (b.accepted.checkCut c)) (.error (.exit
      ⟨.file, "program header spans alignment boundary", []⟩)) := by
    rw [hcheck]
    exact Returns.pure _
  exact ⟨_, andThen_returns_error hexit⟩

/-- A segment across the cut ends the shift. -/
theorem shift_program (hv : HeaderOk b) (hoffset : c.offset < b.size)
    (hcut : ¬ c.offset ≤ program b.phoff b.phnum) {i : Nat} (hfirst : ElfInfo.FirstProgram b c i)
    (h : ProgramsSpare b c i) : ∃ m, Returns (b.accepted.shiftSections c) (.error (.exit m)) := by
  obtain ⟨m, hexit⟩ := ElfInfo.programLoop_exit hv hfirst h
  exact ⟨m, shift_loops hv hoffset hcut (andThen_returns_error hexit)⟩

/-- A section across the cut ends the shift, and its name may be lost by then. -/
theorem shift_section (hv : HeaderOk b) (hoffset : c.offset < b.size)
    (hcut : ¬ c.offset ≤ program b.phoff b.phnum)
    (hprograms : ∀ i, i < b.phnum → ¬ ProgramSpans b c i) {i : Nat}
    (hfirst : ElfInfo.FirstSpan b c i) (h : SectionsSpare b c i) :
    ∃ s, Returns (b.accepted.shiftSections c) (.error s)
      ∧ ((ElfInfo.NameReadable b c i ∧ ∃ m, s = .exit m)
        ∨ (¬ ElfInfo.NameReadable b c i ∧ ∃ q n, s = .outside q n)) := by
  obtain ⟨s, hstop, hs⟩ := ElfInfo.sectionLoop_stop hv hfirst h
  exact ⟨s, shift_loops hv hoffset hcut (andThen_returns
    (ElfInfo.programLoop_ok hv h.programs hprograms) (andThen_returns_error hstop)), hs⟩

/-- Until the call ends, no offset is raised that is a byte of the header or of the
    other table. -/
def Harmless (b : Buffer) (c : Cut) : Prop :=
  c.offset ≤ program b.phoff b.phnum
    ∨ (∃ i, ElfInfo.FirstProgram b c i ∧ ProgramsSpare b c i)
    ∨ ((∀ i, i < b.phnum → ¬ ProgramSpans b c i)
      ∧ ∃ i, ElfInfo.FirstSpan b c i ∧ SectionsSpare b c i)
    ∨ Unshared b c

/-- A shift with both loops to their ends. -/
theorem shiftCorrect_unspanned (hv : Valid b) (h : Unshared b c) (hoffset : c.offset < b.size)
    (hcut : ¬ c.offset ≤ program b.phoff b.phnum)
    (hprograms : ∀ i, i < b.phnum → ¬ ProgramSpans b c i)
    (hsections : ∀ i, i < b.shnum → ¬ SectionSpans b c i) :
    ShiftCorrect b c b.accepted ↔ TooLarge b c ∨ ¬ Torn b c := by
  rcases ElfInfo.insertGap_cases hv.header h with ⟨hlarge, halloc⟩ | ⟨hroom, e, hinsert, hdata, hsize⟩
  · have hr := shift_insert hv.header h hoffset hcut hprograms hsections halloc
    exact (shift_of_result hr).trans (iff_of_true trivial (Or.inl hlarge))
  · have hr := shift_insert hv.header h hoffset hcut hprograms hsections hinsert
    refine (shift_of_result hr).trans ?_
    rw [or_iff_right hroom]
    exact shifted_iff hv h (Nat.lt_of_not_le hcut) hprograms hsections hdata hsize

/-- What `Handled` says of a shift that ends behind the program headers. -/
theorem handled_iff (hcut : ¬ c.offset ≤ program b.phoff b.phnum)
    (hprograms : ∀ i, i < b.phnum → ¬ ProgramSpans b c i) :
    Handled b c ↔ (∃ i, ElfInfo.FirstSpan b c i ∧ ElfInfo.NameReadable b c i)
      ∨ ((∀ i, i < b.shnum → ¬ SectionSpans b c i) ∧ (TooLarge b c ∨ ¬ Torn b c)) := by
  refine ⟨?_, fun hrest => Or.inr (Or.inr hrest)⟩
  rintro (hrefused | ⟨i, hi, hspan⟩ | hrest)
  · exact absurd hrefused hcut
  · exact absurd hspan (hprograms i hi)
  · exact hrest

/-- A shift is correct exactly where the loops end it well, or the section header
    table is not torn. -/
theorem shiftCorrect (hv : Valid b) (h : Harmless b c) (hoffset : c.offset < b.size) :
    ShiftCorrect b c b.accepted ↔ Handled b c := by
  -- The call is refused at its first check,
  by_cases hcut : c.offset ≤ program b.phoff b.phnum
  · obtain ⟨m, hr⟩ := shift_refused hv.header hoffset hcut
    exact (shift_of_result hr).trans (iff_of_true trivial (Or.inl hcut))
  -- or at a program header that spans the cut,
  by_cases hspan : ∃ i, i < b.phnum ∧ ProgramSpans b c i
  · obtain ⟨i, hfirst⟩ := ElfInfo.exists_firstProgram hspan
    have hspare : ProgramsSpare b c i := by
      rcases h with hrefused | ⟨i', hfirst', hspare⟩ | ⟨hno, -⟩ | hunshared
      · exact absurd hrefused hcut
      · rwa [hfirst.unique hfirst']
      · exact absurd hfirst.2.1 (hno i hfirst.1)
      · exact hunshared.programs.mono (Nat.le_of_lt hfirst.1)
    obtain ⟨m, hr⟩ := shift_program hv.header hoffset hcut hfirst hspare
    exact (shift_of_result hr).trans (iff_of_true trivial (Or.inr (Or.inl hspan)))
  have hprograms : ∀ i, i < b.phnum → ¬ ProgramSpans b c i :=
    fun i hi hspans => hspan ⟨i, hi, hspans⟩
  rw [handled_iff hcut hprograms]
  -- or it comes to a section that spans it.
  by_cases hspan : ∃ i, i < b.shnum ∧ SectionSpans b c i
  · obtain ⟨i, hfirst⟩ := ElfInfo.exists_firstSpan hspan
    have hspare : SectionsSpare b c i := by
      rcases h with hrefused | ⟨i', hfirst', -⟩ | ⟨-, i', hfirst', hspare⟩ | hunshared
      · exact absurd hrefused hcut
      · exact absurd hfirst'.2.1 (hprograms i' hfirst'.1)
      · rwa [hfirst.unique hfirst']
      · exact hunshared.toSectionsSpare.mono (Nat.le_of_lt hfirst.1)
    obtain ⟨s, hr, hs⟩ := shift_section hv.header hoffset hcut hprograms hfirst hspare
    refine (shift_of_result hr).trans ?_
    rcases hs with ⟨hname, m, rfl⟩ | ⟨hname, q, n, rfl⟩
    · exact iff_of_true trivial (Or.inl ⟨i, hfirst, hname⟩)
    · refine iff_of_false id ?_
      rintro (⟨i', hfirst', hname'⟩ | ⟨hno, -⟩)
      · rw [hfirst'.unique hfirst] at hname'
        exact hname hname'
      · exact hno i hfirst.1 hfirst.2.1
  have hsections : ∀ i, i < b.shnum → ¬ SectionSpans b c i :=
    fun i hi hspans => hspan ⟨i, hi, hspans⟩
  -- What is left is the move itself.
  have hunshared : Unshared b c := by
    rcases h with hrefused | ⟨i, hfirst, -⟩ | ⟨-, i, hfirst, -⟩ | hunshared
    · exact absurd hrefused hcut
    · exact absurd hfirst.2.1 (hprograms i hfirst.1)
    · exact absurd hfirst.2.1 (hsections i hfirst.1)
    · exact hunshared
  rw [shiftCorrect_unspanned hv hunshared hoffset hcut hprograms hsections]
  refine ⟨fun hend => Or.inr ⟨hsections, hend⟩, ?_⟩
  rintro (⟨i, hfirst, -⟩ | ⟨-, hend⟩)
  · exact absurd hfirst.2.1 (hsections i hfirst.1)
  · exact hend

end Shifts

/-- **`shift_sections`**, on a file that was accepted, as long as raising an offset
    changes nothing else. -/
theorem shiftCorrect_iff {b : Buffer} {c : Cut} {e : ElfInfo}
    (h : b.load.validate = .ok (.accepted e)) (hharmless : Harmless b c)
    (hoffset : c.offset < b.size) : ShiftCorrect b c e ↔ Handled b c := by
  obtain ⟨hvalid, rfl⟩ := Buffer.valid_of_accepted h
  exact shiftCorrect hvalid hharmless hoffset

/-- The symbol table of a file is moved to a page boundary. -/
def toPage : Cut := ⟨408, 3688, by decide, by decide⟩

theorem shiftCorrect_iff_twoSymbols : ShiftCorrect twoSymbols toPage twoSymbols.accepted := by
  have haccepts : twoSymbols.accepts = true := by decide +kernel
  have hregular : Regular twoSymbols :=
    ⟨by decide +kernel, by decide +kernel, Or.inl (by decide +kernel)⟩
  have hprograms : program twoSymbols.phoff twoSymbols.phnum < toPage.offset := by decide +kernel
  refine (shiftCorrect_iff (Buffer.validate_of_accepts haccepts)
    (Or.inr (Or.inr (Or.inr (hregular.unshared hprograms)))) (by decide)).mpr ?_
  refine Or.inr (Or.inr (Or.inr ⟨?_, Or.inr ?_⟩))
  · have hall : ∀ i, i < 4 → ¬ SectionSpans twoSymbols toPage i := by decide +kernel
    exact fun i hi => hall i hi
  · rintro ⟨-, p, hp, hp', -⟩
    have hend : sect twoSymbols.shoff twoSymbols.shnum = 376 := by decide +kernel
    have hcut : (408 : Nat) ≤ p := hp
    omega

/-- The cut lies between the two entries of the section header table. -/
def tornTable : Buffer :=
  sample 249 (by decide) [(eMagic, elfMagic), (ePhoff, 64), (eShoff, 120),
    (ePhentsize, sizeofProgram), (ePhnum, 1), (eShentsize, sizeofSection), (eShnum, 2),
    (eShstrndx, 1), (shType 120 1, shtStrtab), (shOffset 120 1, 248), (shSize 120 1, 1)]

/-- One field is both an offset of a segment and an offset of a section. -/
def sharedOffset : Buffer :=
  sample 200 (by decide) [(eMagic, elfMagic), (ePhoff, 80), (eShoff, 64),
    (ePhentsize, sizeofProgram), (ePhnum, 1), (eShentsize, sizeofSection), (eShnum, 2),
    (eShstrndx, 1), (shOffset 64 0, 196), (shType 64 1, shtStrtab), (shOffset 64 1, 192),
    (shSize 64 1, 1)]

/-- The type of section 1 is lost in the gap, and an offset is raised twice. -/
theorem shift_damages :
    (tornTable.accepts = true ∧ ¬ ShiftCorrect tornTable ⟨184, 8, by decide, by decide⟩
      tornTable.accepted)
    ∧ sharedOffset.accepts = true ∧ ¬ ShiftCorrect sharedOffset ⟨195, 1, by decide, by decide⟩
      sharedOffset.accepted := by
  have htorn : (tornTable.accepted.shiftSections ⟨184, 8, by decide, by decide⟩ 10).map
      (fun r => r.map fun e => (e.shoff, e.data (sect 120 1 + 4))) = some (.ok (120, 0)) := by
    decide +kernel
  have hshared : (sharedOffset.accepted.shiftSections ⟨195, 1, by decide, by decide⟩ 10).map
      (fun r => r.map fun e => (e.phoff, num e.data 88 8)) = some (.ok (80, 198)) := by
    decide +kernel
  refine ⟨⟨by decide +kernel, ?_⟩, by decide +kernel, ?_⟩
  · obtain ⟨r, hr, hdata⟩ := Option.map_eq_some_iff.mp htorn
    rw [shift_of_result (ElfInfo.shiftSections_returns hr)]
    match r, hdata with
    | .ok e, hdata =>
        obtain ⟨hshoff, hbyte⟩ := Prod.mk.inj (Except.ok.inj hdata)
        intro hshifted
        have htype := (hshifted.sections 1 (by decide +kernel)).rest 4 (by decide) (by decide)
        rw [hshoff, hbyte] at htype
        exact absurd htype (by decide +kernel)
  · obtain ⟨r, hr, hdata⟩ := Option.map_eq_some_iff.mp hshared
    rw [shift_of_result (ElfInfo.shiftSections_returns hr)]
    match r, hdata with
    | .ok e, hdata =>
        obtain ⟨hphoff, hnum⟩ := Prod.mk.inj (Except.ok.inj hdata)
        intro hshifted
        have hoffset := (hshifted.programs 0 (by decide +kernel)).offset
        rw [hphoff, show program 80 0 + 8 = 88 from rfl, hnum] at hoffset
        exact absurd hoffset (by decide +kernel)

end ElfFile
