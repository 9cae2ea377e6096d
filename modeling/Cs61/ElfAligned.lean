import Cs61.ElfLinkable

/-! # The symbol table on a page boundary

    A symbol table that is not on a page boundary is moved there, with all that is
    behind it.  The sections are then those of the file before, and every byte of
    a part of the file is where `Cut.moved` takes it. -/

namespace ElfFile

open ByteFiles Checks LoopRules

variable {b b' : Buffer} {c : Cut} {e e' : ElfInfo} {i k n p : Nat}

/-! ## A file to which something was done -/

namespace ElfInfo

@[simp] theorem touched_toBuffer (e : ElfInfo) : e.touched.toBuffer = e.toBuffer := rfl

@[simp] theorem touched_pht (e : ElfInfo) : e.touched.pht = e.pht := rfl

@[simp] theorem touched_sht (e : ElfInfo) : e.touched.sht = e.sht := rfl

/-- A pass does the same to a file that was touched. -/
theorem programPass_touched (c : Cut) (x : Nat × ElfInfo) :
    turn (programPass c (x.1, x.2.touched))
      = (turn (programPass c x)).map (fun y => (y.1, y.2.touched)) (Except.map touched) := by
  obtain ⟨i, e⟩ := x
  simp only [programPass, touched_toBuffer, touched_pht]
  cases e.get ePhnum with
  | error s => rfl
  | ok phnum =>
      dsimp only [bind, Except.bind]
      split_ifs
      · rfl
      · cases e.get (pOffset e.pht i) with
        | error s => rfl
        | ok offset =>
            dsimp only
            split_ifs
            · rfl
            · cases e.get (pFilesz e.pht i) with
              | error s => rfl
              | ok filesz =>
                  dsimp only
                  split_ifs <;> rfl

/-- The flag `changed` does not matter for a pass. -/
theorem sectionPass_touched (c : Cut) (x : Nat × ElfInfo) :
    turn (sectionPass c (x.1, x.2.touched))
      = (turn (sectionPass c x)).map (fun y => (y.1, y.2.touched)) (Except.map touched) := by
  obtain ⟨i, e⟩ := x
  have hspans : e.touched.spans c i = e.spans c i := rfl
  have hrefuse : e.touched.refuse c i = e.refuse c i := rfl
  simp only [sectionPass, touched_toBuffer, touched_sht, hspans, hrefuse]
  cases e.get eShnum with
  | error s => rfl
  | ok shnum =>
      dsimp only [bind, Except.bind]
      split_ifs
      · rfl
      · cases e.get (shOffset e.sht i) with
        | error s => rfl
        | ok offset =>
            dsimp only
            split_ifs
            · rfl
            · cases e.spans c i with
              | error s => rfl
              | ok yes =>
                  cases yes with
                  | false => rfl
                  | true => cases e.refuse c i <;> rfl

/-- Nor for `grow`. -/
theorem grow_touched (e : ElfInfo) (n : Nat) : e.touched.grow n = (e.grow n).map touched := by
  by_cases hneed : e.capacity < n
  · by_cases hsmall : max n (e.capacity + 32768) < 2 ^ 63
    · let r := e.realloc (max n (e.capacity + 32768))
        (Nat.le_trans (Nat.le_trans e.fits (Nat.le_add_right _ _)) (Nat.le_max_right _ _)) hsmall
      rw [grow, if_pos (show e.touched.capacity < n from hneed),
        dif_pos (show max n (e.touched.capacity + 32768) < 2 ^ 63 from hsmall), grow, if_pos hneed,
        dif_pos hsmall]
      show (if r.ok = true then r.touched.locate >>= _ else _)
        = (if r.ok = true then r.locate >>= _ else _ : Except Stop ElfInfo).map touched
      rw [locate, locate]
      simp only [touched_toBuffer]
      split_ifs
      · cases r.get ePhoff with
        | error s => rfl
        | ok pht => cases r.get eShoff <;> rfl
      · rfl
    · rw [grow, if_pos (show e.touched.capacity < n from hneed),
        dif_neg (show ¬ max n (e.touched.capacity + 32768) < 2 ^ 63 from hsmall), grow,
        if_pos hneed, dif_neg hsmall]
      rfl
  · rw [grow, if_neg (show ¬ e.touched.capacity < n from hneed), grow, if_neg hneed]
    rfl

/-- The gap sets it in any case. -/
theorem insertGap_touched (e : ElfInfo) (c : Cut) : e.touched.insertGap c = e.insertGap c := by
  rw [insertGap, insertGap, grow_touched]
  show (Except.map touched (e.grow ((e.size + c.diff) % 2 ^ 64)) >>= _) = _
  cases e.grow ((e.size + c.diff) % 2 ^ 64) with
  | error s => rfl
  | ok e₁ => rfl

/-- So does a shift, which touches the file itself. -/
theorem shiftSections_touched (e : ElfInfo) (c : Cut) (budget : Nat) :
    e.touched.shiftSections c budget = e.shiftSections c budget := by
  have hprograms : programLoop c e.touched budget
      = (programLoop c e budget).map (Except.map touched) :=
    @run_map _ _ (fun x => turn (programPass c x)) (fun y => (y.1, y.2.touched)) _
      (programPass_touched c) budget (0, e)
  have hsections : ∀ e, sectionLoop c (touched e) budget
      = (sectionLoop c e budget).map (Except.map touched) :=
    fun e => @run_map _ _ (fun x => turn (sectionPass c x)) (fun y => (y.1, y.2.touched)) _
      (sectionPass_touched c) budget (0, e)
  have hcheck : e.touched.checkCut c = e.checkCut c := rfl
  rw [shiftSections, shiftSections, hcheck, hprograms]
  congr 1
  funext _
  cases programLoop c e budget with
  | none => rfl
  | some r =>
      cases r with
      | error s => rfl
      | ok e₁ =>
          show andThen (sectionLoop c e₁.touched budget) _ = andThen (sectionLoop c e₁ budget) _
          rw [hsections]
          cases sectionLoop c e₁ budget with
          | none => rfl
          | some r =>
              cases r with
              | error s => rfl
              | ok e₂ => exact congrArg some (insertGap_touched e₂ c)

end ElfInfo

/-! ## A shift that succeeds -/

namespace ElfInfo

/-- The pointers are those of the header, and no symbol table is cached. -/
structure Pointed (e : ElfInfo) : Prop where
  ok : e.ok = true
  pht : e.pht = e.phoff
  sht : e.sht = e.shoff
  cache : e.cache = none

/-- The pointers to the tables are set anew. -/
theorem grow_pointed (h : Pointed e) (hheader : sizeofHeader ≤ e.size) (hgrow : e.grow n = .ok e') :
    Pointed e' ∧ e'.size = e.size := by
  rw [grow] at hgrow
  split_ifs at hgrow with hneed hsmall
  · let r := e.realloc (max n (e.capacity + 32768))
      (Nat.le_trans (Nat.le_trans e.fits (Nat.le_add_right _ _)) (Nat.le_max_right _ _)) hsmall
    have hlocate : r.locate = .ok { r with pht := r.phoff, sht := r.shoff } := locate_ok hheader
    have hgrow : (if r.ok = true then
        r.locate >>= fun e => .ok { e with cache := none } else .ok r) = .ok e' := hgrow
    rw [if_pos (show r.ok = true from h.ok), hlocate] at hgrow
    obtain rfl := Except.ok.inj hgrow
    exact ⟨⟨h.ok, rfl, rfl, rfl⟩, rfl⟩
  · obtain rfl := Except.ok.inj hgrow
    exact ⟨h, rfl⟩

/-- The move leaves the header, and so the pointers. -/
theorem moveData_pointed (h : Pointed e) (hcut : sizeofHeader ≤ c.offset)
    (hmove : e.moveData c = .ok e') :
    Pointed e' ∧ e'.changed = true ∧ e'.size = e.size + c.diff := by
  rw [moveData] at hmove
  split_ifs at hmove with hroom
  obtain rfl := Except.ok.inj hmove
  have hfield : ∀ x : Field, InHeader x →
      num (openGap e.data e.size c.offset c.diff) x.off x.bytes = e.val x := by
    intro x hx
    have hx : x.off + x.bytes ≤ sizeofHeader := hx
    exact num_congr fun k hk => openGap_below (by omega)
  exact ⟨⟨h.ok, h.pht.trans (hfield ePhoff (by decide)).symm,
    h.sht.trans (hfield eShoff (by decide)).symm, h.cache⟩, rfl, rfl⟩

/-- The pointer follows `e_shoff`. -/
theorem updateShoff_pointed (h : Pointed e) (hheader : sizeofHeader ≤ e.size)
    (hupdate : e.updateShoff c = .ok e') : Pointed e' ∧ e'.changed = e.changed := by
  have hin : eShoff.off + eShoff.bytes ≤ e.size :=
    Nat.le_trans (show InHeader eShoff by decide) hheader
  rw [updateShoff, Buffer.get_bind hin] at hupdate
  split_ifs at hupdate with hcut
  · let r := e.set eShoff ((e.shoff + c.diff) % 2 ^ 64)
    have hupdate : (r.get eShoff >>= fun sht => Except.ok { r with sht := sht }) = .ok e' := hupdate
    rw [Buffer.get_bind (show eShoff.off + eShoff.bytes ≤ r.size from hin)] at hupdate
    obtain rfl := Except.ok.inj hupdate
    refine ⟨⟨h.ok, h.pht.trans (Eq.symm ?_), rfl, h.cache⟩, rfl⟩
    exact num_put_apart _ (by decide)
  · obtain rfl := Except.ok.inj hupdate
    exact ⟨h, rfl⟩

/-- The pointers when the gap is open. -/
theorem insertGap_pointed (h : Pointed e) (hheader : sizeofHeader ≤ e.size)
    (hcut : sizeofHeader ≤ c.offset) (hinsert : e.insertGap c = .ok e') :
    Pointed e' ∧ e'.changed = true := by
  obtain ⟨e₁, hgrow, hinsert⟩ := ok_of_bind hinsert
  obtain ⟨e₂, hmove, hupdate⟩ := ok_of_bind hinsert
  obtain ⟨h₁, hsize₁⟩ := grow_pointed h hheader hgrow
  obtain ⟨h₂, hchanged, hsize₂⟩ := moveData_pointed h₁ hcut hmove
  obtain ⟨h₃, hsame⟩ := updateShoff_pointed h₂ (by omega) hupdate
  exact ⟨h₃, hsame.trans hchanged⟩

end ElfInfo

section Shift

variable (hv : Valid b) (hlaid : LaidOut b)

include hv hlaid

/-- What a shift that succeeds has found, and what it leaves. -/
theorem shift_ok (hoffset : c.offset < b.size)
    (hr : Returns (b.accepted.shiftSections c) (.ok e)) :
    program b.phoff b.phnum < c.offset ∧ (∀ i, i < b.phnum → ¬ ProgramSpans b c i)
      ∧ (∀ i, i < b.shnum → ¬ SectionSpans b c i)
      ∧ (b.withData (b.updated c)).insertGap c = .ok e := by
  by_cases hcut : c.offset ≤ program b.phoff b.phnum
  · obtain ⟨m, hexit⟩ := shift_refused hv.header hoffset hcut
    cases hr.unique hexit
  have hunshared := (hlaid.regular hv.header).unshared (Nat.lt_of_not_le hcut)
  by_cases hspan : ∃ i, i < b.phnum ∧ ProgramSpans b c i
  · obtain ⟨i, hfirst⟩ := ElfInfo.exists_firstProgram hspan
    obtain ⟨m, hexit⟩ := shift_program hv.header hoffset hcut hfirst
      (hunshared.programs.mono (Nat.le_of_lt hfirst.1))
    cases hr.unique hexit
  have hprograms : ∀ i, i < b.phnum → ¬ ProgramSpans b c i :=
    fun i hi hspans => hspan ⟨i, hi, hspans⟩
  by_cases hspan : ∃ i, i < b.shnum ∧ SectionSpans b c i
  · obtain ⟨i, hfirst⟩ := ElfInfo.exists_firstSpan hspan
    obtain ⟨s, hstop, -⟩ := shift_section hv.header hoffset hcut hprograms hfirst
      (hunshared.toSectionsSpare.mono (Nat.le_of_lt hfirst.1))
    cases hr.unique hstop
  have hsections : ∀ i, i < b.shnum → ¬ SectionSpans b c i :=
    fun i hi hspans => hspan ⟨i, hi, hspans⟩
  exact ⟨Nat.lt_of_not_le hcut, hprograms, hsections,
    (hr.unique (shift_insert hv.header hunshared hoffset hcut hprograms hsections rfl)).symm⟩

end Shift

/-! ## Where everything is then -/

/-- A range that does not lie across the cut is moved as a whole. -/
theorem Cut.moved_range {a size : Nat} (c : Cut) (hspan : a < c.offset → a + n ≤ c.offset)
    (hn : a + n ≤ size) (hsize : size + c.diff < 2 ^ 64) (hp : c.moved a ≤ p)
    (hp' : p < c.moved a + n) : ∃ p', a ≤ p' ∧ p' < a + n ∧ p = c.moved p' := by
  by_cases hbelow : a < c.offset
  · have hend := hspan hbelow
    rw [c.moved_of_lt hbelow] at hp hp'
    exact ⟨p, hp, hp', (c.moved_of_lt (by omega)).symm⟩
  · have hcut := Nat.le_of_not_lt hbelow
    rw [c.moved_of_le hcut, Nat.mod_eq_of_lt (by omega)] at hp hp'
    refine ⟨p - c.diff, by omega, by omega, ?_⟩
    rw [c.moved_of_le (by omega), Nat.mod_eq_of_lt (by omega)]
    omega

/-- Nothing is moved onto something else. -/
theorem Cut.moved_injective {size q : Nat} (c : Cut) (hsize : size + c.diff < 2 ^ 64)
    (hp : p < size) (hq : q < size) (heq : c.moved p = c.moved q) : p = q := by
  have hpos := c.pos
  rcases Nat.lt_or_ge p c.offset with hpc | hpc <;> rcases Nat.lt_or_ge q c.offset with hqc | hqc
  · rwa [c.moved_of_lt hpc, c.moved_of_lt hqc] at heq
  · rw [c.moved_of_lt hpc, c.moved_of_le hqc, Nat.mod_eq_of_lt (by omega)] at heq
    omega
  · rw [c.moved_of_le hpc, c.moved_of_lt hqc, Nat.mod_eq_of_lt (by omega)] at heq
    omega
  · rw [c.moved_of_le hpc, c.moved_of_le hqc, Nat.mod_eq_of_lt (by omega),
      Nat.mod_eq_of_lt (by omega)] at heq
    omega

/-- A byte of the contents is no offset. -/
theorem LaidOut.not_isOffset (hlaid : LaidOut b) (hp : Covers b (.contents i) p) :
    ¬ IsOffset b p := by
  rintro (⟨-, hlast⟩ | ⟨j, hj, hfirst, hlast⟩ | ⟨j, hj, hfirst, hlast⟩)
  · have hheader : Covers b .header p := by
      simp only [Covers, eShoff, sizeofHeader] at hlast ⊢
      omega
    exact Region.noConfusion (hlaid _ _ p hp hheader)
  · have hprogram : Covers b .programs p := by
      simp only [Covers, pOffset, program, sizeofProgram] at hfirst hlast ⊢
      omega
    exact Region.noConfusion (hlaid _ _ p hp hprogram)
  · have hsection : Covers b .sections p := by
      simp only [Covers, shOffset, sect, sizeofSection] at hfirst hlast ⊢
      omega
    exact Region.noConfusion (hlaid _ _ p hp hsection)

/-- The symbol table of the file is to be moved, and no part lies across the cut. -/
structure Cuts (b : Buffer) (c : Cut) : Prop where
  valid : Valid b
  laidOut : LaidOut b
  symtab : b.HasSymtab
  nonempty : b.val (shSize b.shoff b.symtabNdx) ≠ 0
  cut : c.offset = b.table.symtab
  programs : program b.phoff b.phnum < c.offset
  sections : ∀ i, i < b.shnum → ¬ SectionSpans b c i

namespace Cuts

variable (hc : Cuts b c)

include hc

omit hc in
/-- Offsets do not wrap. -/
theorem small : b.size + c.diff < 2 ^ 64 := by
  have hfits := b.fits
  have hsmall := b.small
  have hdiff := c.small
  omega

/-- The header and the tables are apart. -/
theorem regular : Regular b := hc.laidOut.regular hc.valid.header

/-- The cut is in the file. -/
theorem cut_lt : c.offset < b.size := by
  rw [hc.cut]
  exact (hc.valid.contents_inside (Buffer.symtabNdx_lt hc.valid)
    (fileBacked_of_type hc.symtab.type (by decide))).1

/-- The cut is in the symbol table, so it is in no other part. -/
theorem covers_cut {r : Region} (hr : Covers b r c.offset) : r = .contents b.symtabNdx := by
  have hnonempty := hc.nonempty
  have hcut : c.offset = b.val (shOffset b.shoff b.symtabNdx) := hc.cut
  refine hc.laidOut r _ c.offset hr ⟨Buffer.symtabNdx_lt hc.valid,
    fileBacked_of_type hc.symtab.type (by decide), ?_, ?_⟩
  · omega
  · omega

/-- A section header table before the cut ends before it. -/
theorem shoff_below (hbelow : b.shoff < c.offset) : sect b.shoff b.shnum ≤ c.offset := by
  by_contra hspan
  exact Region.noConfusion
    (hc.covers_cut (r := .sections) ⟨Nat.le_of_lt hbelow, Nat.lt_of_not_le hspan⟩)

/-- The cut does not tear the section header table. -/
theorem not_torn : ¬ Torn b c := by
  rintro ⟨hbelow, p, hp, hp', -⟩
  have hend := hc.shoff_below hbelow
  omega

/-- The contents of a section lie on one side. -/
theorem contents_below (hi : i < b.shnum) (hbacked : FileBacked b i)
    (hbelow : b.val (shOffset b.shoff i) < c.offset) :
    b.val (shOffset b.shoff i) + b.val (shSize b.shoff i) ≤ c.offset := by
  have hin := hc.valid.contents_inside hi hbacked
  have hfits := b.fits
  have hsmall := b.small
  by_contra hspan
  refine hc.sections i hi ⟨hbelow, hbacked, ?_⟩
  rw [Nat.mod_eq_of_lt (by omega)]
  omega

end Cuts

namespace Shifted

variable (h : Shifted b c b')

include h

/-- A field of a section header that is no offset. -/
theorem val_entry (hi : i < b.shnum) (hk : k + n ≤ 24 ∨ (32 ≤ k ∧ k + n ≤ sizeofSection)) :
    b'.val ⟨sect b'.shoff i + k, n⟩ = b.val ⟨sect b.shoff i + k, n⟩ := by
  refine num_congr fun j hj => ?_
  have hj : j < n := hj
  rw [Nat.add_assoc, Nat.add_assoc]
  refine (h.sections i hi).rest _ ?_ (by omega)
  simp only [sizeofSection] at hk ⊢
  omega

/-- The offset of a section is moved. -/
theorem val_offset (hi : i < b.shnum) :
    b'.val (shOffset b'.shoff i) = c.moved (b.val (shOffset b.shoff i)) :=
  (h.sections i hi).offset

/-- A field of the header. -/
theorem val_header {x : Field} (hx : InHeader x)
    (hfree : x.off + x.bytes ≤ eShoff.off ∨ eShoff.off + 8 ≤ x.off) : b'.val x = b.val x := by
  have hx : x.off + x.bytes ≤ sizeofHeader := hx
  exact num_congr fun k hk => h.header _ (by omega) (by omega)

/-- The shift keeps the types of sections. -/
theorem fileBacked (hi : i < b.shnum) : FileBacked b' i ↔ FileBacked b i := by
  have htype : b'.val (shType b'.shoff i) = b.val (shType b.shoff i) :=
    h.val_entry hi (Or.inl (by decide))
  rw [FileBacked, FileBacked, htype]

variable (hc : Cuts b c)

include hc

/-- Every byte of a part is one that was moved. -/
theorem covers {r : Region} (hp : Covers b' r p) :
    ∃ p', p' < b.size ∧ Covers b r p' ∧ p = c.moved p' := by
  have hsmall := Cuts.small (b := b) (c := c)
  have hheader := hc.valid.header.header
  have hpht := hc.regular.pht
  have hprograms := hc.programs
  have hcut := hc.cut_lt
  -- by the part that the byte belongs to
  cases r with
  | header =>
      have hp : p < sizeofHeader := hp
      refine ⟨p, by omega, hp, (c.moved_of_lt ?_).symm⟩
      simp only [program] at hprograms
      omega
  | programs =>
      have hphoff : b'.phoff = b.phoff := h.val_header (x := ePhoff) (by decide) (by decide)
      have hphnum : b'.phnum = b.phnum := h.val_header (x := ePhnum) (by decide) (by decide)
      obtain ⟨hfirst, hlast⟩ := hp
      rw [hphoff] at hfirst
      rw [hphoff, hphnum] at hlast
      exact ⟨p, by omega, ⟨hfirst, hlast⟩, (c.moved_of_lt (by omega)).symm⟩
  | sections =>
      have hshnum : b'.shnum = b.shnum := h.val_header (x := eShnum) (by decide) (by decide)
      have hin := hc.valid.header.sections_inside
      obtain ⟨hfirst, hlast⟩ := hp
      rw [h.shoff] at hfirst
      rw [h.shoff, hshnum] at hlast
      obtain ⟨p', hfirst', hlast', heq⟩ := c.moved_range (n := sizeofSection * b.shnum)
        (fun hbelow => hc.shoff_below hbelow) hin hsmall hfirst hlast
      have hlast' : p' < sect b.shoff b.shnum := hlast'
      exact ⟨p', by omega, ⟨hfirst', hlast'⟩, heq⟩
  | contents i =>
      -- the contents lie on one side of the cut
      have hshnum : b'.shnum = b.shnum := h.val_header (x := eShnum) (by decide) (by decide)
      obtain ⟨hi, hbacked, hfirst, hlast⟩ := hp
      rw [hshnum] at hi
      have hbacked := (h.fileBacked hi).mp hbacked
      have hsize : b'.val (shSize b'.shoff i) = b.val (shSize b.shoff i) :=
        h.val_entry hi (Or.inr ⟨by decide, by decide⟩)
      rw [h.val_offset hi] at hfirst
      rw [h.val_offset hi, hsize] at hlast
      obtain ⟨-, hin⟩ := hc.valid.contents_inside hi hbacked
      obtain ⟨p', hfirst', hlast', heq⟩ :=
        c.moved_range (hc.contents_below hi hbacked) hin hsmall hfirst hlast
      exact ⟨p', by omega, ⟨hi, hbacked, hfirst', hlast'⟩, heq⟩

/-- **THE LAYOUT** is one behind the shift. -/
theorem laidOut : LaidOut b' := by
  intro r r' p hp hp'
  -- two parts that meet behind the shift met before it
  obtain ⟨p₁, hin₁, hcovers₁, rfl⟩ := h.covers hc hp
  obtain ⟨p₂, hin₂, hcovers₂, heq⟩ := h.covers hc hp'
  obtain rfl := c.moved_injective Cuts.small hin₁ hin₂ heq
  exact hc.laidOut r r' p₁ hcovers₁ hcovers₂

/-- The contents of every section are moved with its offset. -/
theorem contents (hi : i < b.shnum) (hbacked : FileBacked b i)
    (hk : k < b.val (shSize b.shoff i)) :
    b'.data (b'.val (shOffset b'.shoff i) + k) = b.data (b.val (shOffset b.shoff i) + k) := by
  obtain ⟨-, hin⟩ := hc.valid.contents_inside hi hbacked
  rw [h.val_offset hi]
  exact h.sectionBytes i hi hbacked k hk (by omega)
    (hc.laidOut.not_isOffset (i := i) ⟨hi, hbacked, by omega, by omega⟩)

/-- The sections lie in the longer file. -/
theorem inside (hi : i < b.shnum) (hbacked : FileBacked b i) :
    b'.val (shOffset b'.shoff i) < b'.size
      ∧ b'.val (shOffset b'.shoff i) + b.val (shSize b.shoff i) ≤ b'.size := by
  have hsmall := Cuts.small (b := b) (c := c)
  obtain ⟨hstart, hend⟩ := hc.valid.contents_inside hi hbacked
  rw [h.val_offset hi, h.size]
  rcases Nat.lt_or_ge (b.val (shOffset b.shoff i)) c.offset with hbelow | hcut
  · rw [c.moved_of_lt hbelow]
    omega
  · rw [c.moved_of_le hcut, Nat.mod_eq_of_lt (by omega)]
    omega

/-- The tables lie in the longer file. -/
theorem tablesOk : TablesOk b' := by
  have hok := hc.valid.header
  have hsmall := Cuts.small (b := b) (c := c)
  have hsections := hc.valid.header.sections_inside
  have hprograms := hc.programs
  have hcut := hc.cut_lt
  have hheader := hok.header
  have hphoff : b'.phoff = b.phoff := h.val_header (x := ePhoff) (by decide) (by decide)
  have hphnum : b'.phnum = b.phnum := h.val_header (x := ePhnum) (by decide) (by decide)
  have hshnum : b'.shnum = b.shnum := h.val_header (x := eShnum) (by decide) (by decide)
  have hphoff_lt := hok.phoff
  have hshoff_lt := hok.shoff
  have hmoved : c.moved b.shoff ≤ b.shoff + c.diff := by
    rw [Cut.moved]
    split_ifs
    · exact Nat.mod_le _ _
    · omega
  refine ⟨by rw [h.size]; omega, ?_, ?_, ?_, ?_⟩
  · rw [hphoff, h.size]
    omega
  · rw [hphoff, hphnum, h.size, Nat.le_div_iff_mul_le (by decide), Nat.mul_comm]
    simp only [program, sizeofProgram] at hprograms ⊢
    omega
  · rw [h.shoff, h.size]
    omega
  · rw [h.shoff, hshnum, h.size, Nat.le_div_iff_mul_le (by decide), Nat.mul_comm]
    simp only [sect, sizeofSection] at hsections ⊢
    omega

/-- The sections are the same, elsewhere. -/
theorem refiled : Refiled b b' where
  tables := h.tablesOk hc
  header := by
    intro x hx
    simp only [List.mem_cons, List.not_mem_nil, or_false] at hx
    rcases hx with rfl | rfl | rfl | rfl | rfl <;> exact h.val_header (by decide) (by decide)
  programs := by
    rw [show b'.phnum = b.phnum from h.val_header (x := ePhnum) (by decide) (by decide)]
    exact hc.valid.header.programs
  entries := fun i hi k hk => (h.sections i hi).rest k (by simp only [sizeofSection]; omega) (by omega)
  addresses := fun i hi _ => h.val_entry hi (Or.inl (by decide))
  inside := fun i hi hbacked => h.inside hc hi hbacked
  contents := fun i hi hbacked _ _ k hk => h.contents hc hi hbacked hk
  symbols := by
    refine ⟨id, fun _ hj => hj, Set.bijOn_id _, fun j hj k hk => ?_⟩
    obtain ⟨hi, hbacked, -, hlast⟩ := covers_entry hc.valid hc.symtab hj hk
    have hlast : b.val (shOffset b.shoff b.symtabNdx) + sizeofSymbol * j + k
        < b.val (shOffset b.shoff b.symtabNdx) + b.val (shSize b.shoff b.symtabNdx) := hlast
    have hsame := h.contents hc hi hbacked (k := sizeofSymbol * j + k) (by omega)
    rwa [← Nat.add_assoc, ← Nat.add_assoc] at hsame

/-- The contents of a section behind the table. -/
theorem offset_behind (hi : i < b.shnum) (hbacked : FileBacked b i)
    (hbehind : b.table.symtab ≤ b.val (shOffset b.shoff i)) :
    b'.val (shOffset b'.shoff i) = b.val (shOffset b.shoff i) + c.diff := by
  have hsmall := Cuts.small (b := b) (c := c)
  have hin := (hc.valid.contents_inside hi hbacked).1
  rw [h.val_offset hi, c.moved_of_le (hc.cut ▸ hbehind), Nat.mod_eq_of_lt (by omega)]

/-- The symbol table is behind the gap. -/
theorem table_symtab : b'.table.symtab = b.table.symtab + c.diff := by
  have hlt := Buffer.symtabNdx_lt hc.valid
  show b'.val (shOffset b'.shoff b'.symtabNdx) = b.val (shOffset b.shoff b.symtabNdx) + c.diff
  rw [(h.refiled hc).symtabNdx_eq hc.valid hc.symtab]
  exact h.offset_behind hc hlt (fileBacked_of_type hc.symtab.type (by decide)) (Nat.le_refl _)

/-- **THE PARTS** are moved, and not changed. -/
theorem moves : Moves b b' where
  toRefiled := h.refiled hc
  laidOut := h.laidOut hc
  phnum := h.val_header (x := ePhnum) (by decide) (by decide)
  records := fun i hi htype k hk =>
    h.contents hc hi (fileBacked_of_type htype (by decide)) hk
  strings := by
    intro hstrings
    have hr := h.refiled hc
    have hlt := Buffer.symtabNdx_lt hc.valid
    obtain ⟨hlink, htype⟩ := (hc.valid.sections _ hlt).link hc.symtab.type
    refine ⟨c.diff, h.table_symtab hc, ?_⟩
    show b'.val (shOffset b'.shoff (b'.val (shLink b'.shoff b'.symtabNdx)))
      = b.val (shOffset b.shoff (b.val (shLink b.shoff b.symtabNdx))) + c.diff
    rw [hr.symtabNdx_eq hc.valid hc.symtab, hr.link hlt]
    exact h.offset_behind hc hlink (fileBacked_of_type htype (by decide)) hstrings

end Shifted

/-! ## The step -/

/-- A step in place that touches no record. -/
theorem InPlace.moves (h : InPlace b b') (hv : Valid b) (hlaid : LaidOut b) (hsym : b.HasSymtab)
    (hphnum : b'.phnum = b.phnum) (hrecords : ∀ i p, Covers b (.contents i) p →
      b.val (shType b.shoff i) = shtProgbits → b'.data p = b.data p) : Moves b b' where
  toRefiled := h.refiled hv
  laidOut := h.laidOut hlaid
  phnum := hphnum
  records := by
    intro i hi htype k hk
    rw [h.shoff, h.offset hi]
    exact hrecords i _ ⟨hi, fileBacked_of_type htype (by decide), by omega, by omega⟩ htype
  strings := by
    intro _
    rw [h.table_eq hv hsym]
    exact ⟨0, (Nat.add_zero _).symm, (Nat.add_zero _).symm⟩

/-- The file whose symbol table is said to be aligned. -/
def Buffer.tagged (b : Buffer) : Buffer :=
  { b with data := put b.data (shAddralign b.shoff b.symtabNdx).off 8 pageSize }

section Tagged

variable (hv : Valid b) (hlaid : LaidOut b) (hsym : b.HasSymtab)

include hv

/-- Only the section header table is written. -/
theorem tagged_apart (hp : ¬ Covers b .sections p) : b.tagged.data p = b.data p := by
  refine put_of_not_mem _ ?_
  by_contra hmeet
  have hcovers := LaidOut.covers_sect (b := b) (Buffer.symtabNdx_lt hv)
    (k := p - sect b.shoff b.symtabNdx) (by
      simp only [shAddralign, sizeofSection] at hmeet ⊢
      omega)
  simp only [shAddralign] at hmeet
  exact hp (by rwa [Nat.add_sub_cancel' (by omega)] at hcovers)

include hlaid hsym

/-- The alignment of a section is a field that nothing else reads. -/
theorem tagged_inPlace : InPlace b b.tagged := by
  refine InPlace.within hv hlaid (r := .sections) Region.noConfusion rfl
    (fun p hp => tagged_apart hv hp) (fun p hp hsolid => ?_)
    (reordered_apart hv hlaid hsym Region.noConfusion fun p hp => tagged_apart hv hp)
  cases hsolid with
  | header hlt _ => exact Region.noConfusion (hlaid .header .sections p hlt hp)
  | entry hi hk =>
      refine put_of_not_mem _ ?_
      simp only [shAddralign, sect, sizeofSection]
      omega
  | address hi htype hk hk' =>
      refine put_of_not_mem _ ?_
      simp only [shAddralign, sect, sizeofSection]
      omega
  | contents hcontents _ _ => exact Region.noConfusion (hlaid _ _ p hcontents hp)

/-- Nothing is moved by it. -/
theorem tagged_moves : Moves b b.tagged := by
  have hplace := tagged_inPlace hv hlaid hsym
  have hphnum := phnum_apart hlaid (r := .sections) Region.noConfusion
    fun p hp => tagged_apart hv hp
  refine hplace.moves hv hlaid hsym hphnum fun i p hp _ => ?_
  exact tagged_apart hv fun hsections => Region.noConfusion (hlaid _ _ p hp hsections)

end Tagged

/-- What the alignment leaves of the file `b`. -/
structure Aligned (b : Buffer) (o : Options) (e : ElfInfo) : Prop extends Opened e where
  cache : e.cache = none
  ndx : e.symtabNdx = b.symtabNdx
  linked : e.Linked
  linkable : Linkable e.toBuffer o
  page : e.table.symtab % pageSize = 0
  noted : e.changed = false → e = b.accepted

/-- An accepted file is open. -/
theorem opened_accepted (hv : Valid b) : Opened b.accepted := ⟨hv, rfl, rfl, rfl⟩

/-- A table on a page boundary is left alone. -/
theorem Opened.alignSymtab_page (h : Opened e) (hpage : e.table.symtab % pageSize = 0) :
    e.alignSymtab e.symtabNdx n = some (.ok e) := by
  obtain ⟨-, -, hoffset, -⟩ := h.valid.header.fields_inside (Buffer.symtabNdx_lt h.valid)
  have hfirst : e.table.symtab = e.val (shOffset e.shoff e.symtabNdx) := rfl
  rw [hfirst] at hpage
  rw [ElfInfo.alignSymtab, h.sht, Buffer.get_ok hoffset, andThen]
  dsimp only [Option.bind_some]
  rw [dif_neg (not_not.mpr hpage)]

/-- From the table to the next page. -/
def Buffer.toNextPage (b : Buffer) : Cut :=
  ⟨b.table.symtab, pageSize - b.table.symtab % pageSize,
    Nat.sub_pos_of_lt (Nat.mod_lt _ (by decide)), Nat.lt_of_le_of_lt (Nat.sub_le _ _) (by decide)⟩

/-- Any other table is moved. -/
theorem Opened.alignSymtab_shift (h : Opened e) (hpage : e.table.symtab % pageSize ≠ 0)
    (hok : e.alignSymtab e.symtabNdx n = some (.ok e')) :
    (e.set (shAddralign e.shoff e.symtabNdx) pageSize).shiftSections e.toNextPage n
      = some (.ok e') := by
  have hlt := Buffer.symtabNdx_lt h.valid
  have hin := h.valid.header.section_inside hlt
  obtain ⟨-, -, hoffset, -⟩ := h.valid.header.fields_inside hlt
  have halign : (shAddralign e.shoff e.symtabNdx).off + 8 ≤ e.size := by
    simp only [shAddralign, sizeofSection] at hin ⊢
    omega
  have hfirst : e.table.symtab = e.val (shOffset e.shoff e.symtabNdx) := rfl
  have hpage' := hfirst ▸ hpage
  rw [ElfInfo.alignSymtab, h.sht, Buffer.get_ok hoffset, andThen] at hok
  dsimp only [Option.bind_some] at hok
  rw [dif_pos hpage', Buffer.test, Buffer.get_ok halign] at hok
  dsimp only [Except.map, bind, Except.bind] at hok
  split_ifs at hok
  · rw [andThen] at hok
    dsimp only [Option.bind_some] at hok
    rw [ElfInfo.shiftSections_touched] at hok
    exact hok
  · cases hok

/-- A shift of a table that succeeds. -/
theorem shift_moves (hv : Valid b) (hlaid : LaidOut b) (hsym : b.HasSymtab)
    (hnonempty : b.val (shSize b.shoff b.symtabNdx) ≠ 0) (hcut : c.offset = b.table.symtab)
    (hr : Returns (b.accepted.shiftSections c) (.ok e)) :
    Cuts b c ∧ Shifted b c e.toBuffer ∧ ElfInfo.Pointed e ∧ e.changed = true := by
  have hlt : c.offset < b.size := by
    rw [hcut]
    exact (hv.contents_inside (Buffer.symtabNdx_lt hv)
      (fileBacked_of_type hsym.type (by decide))).1
  obtain ⟨hprograms, hsegments, hsections, hinsert⟩ := shift_ok hv hlaid hlt hr
  have hcuts : Cuts b c := ⟨hv, hlaid, hsym, hnonempty, hcut, hprograms, hsections⟩
  have hunshared := (hlaid.regular hv.header).unshared hprograms
  -- a shift that succeeds had the memory for the gap
  rcases ElfInfo.insertGap_cases hv.header hunshared with
    ⟨-, halloc⟩ | ⟨-, e', hinsert', hdata, hsize⟩
  · cases halloc.symm.trans hinsert
  obtain rfl := Except.ok.inj (hinsert'.symm.trans hinsert)
  have hfield : ∀ x, InHeader x → num (b.updated c) x.off x.bytes = b.val x := fun x hx =>
    hunshared.num_header (Nat.le_refl _) hx
  have hpointed : ElfInfo.Pointed (b.withData (b.updated c)) :=
    ⟨rfl, (hfield ePhoff (by decide)).symm, (hfield eShoff (by decide)).symm, rfl⟩
  exact ⟨hcuts, (shifted_iff hv hunshared hprograms hsegments hsections hdata hsize).mpr
    hcuts.not_torn, ElfInfo.insertGap_pointed hpointed hv.header.header hunshared.cut hinsert⟩

/-- **THE ALIGNMENT** leaves a linkable file with the table on a page boundary. -/
theorem alignSymtab_ok (hv : Valid b) (hlinked : b.Linked) (hb : Linkable b o)
    (h : b.accepted.alignSymtab b.symtabNdx n = some (.ok e)) : Aligned b o e := by
  have hsym := hlinked.toHasSymtab
  by_cases hpage : b.table.symtab % pageSize = 0
  · obtain rfl := Except.ok.inj (Option.some.inj
      (h.symm.trans ((opened_accepted hv).alignSymtab_page (n := n) hpage)))
    exact ⟨opened_accepted hv, rfl, rfl, hlinked, hb, hpage, fun _ => rfl⟩
  -- `sh_addralign` is written first, and the shift works on that file
  have hplace := tagged_inPlace hv hb.laidOut hsym
  have hmoves := tagged_moves hv hb.laidOut hsym
  have hb' := hmoves.linkable hv hsym hb
  have hsym' := hmoves.hasSymtab hv hsym
  have hv' := hmoves.valid hv hsym
  have hlinked' := hmoves.linked hv hsym hlinked
  have htagged : b.accepted.set (shAddralign b.shoff b.symtabNdx) pageSize
      = b.tagged.accepted := by
    show ElfInfo.mk b.tagged false true b.phoff b.shoff none
      = ElfInfo.mk b.tagged false true b.tagged.phoff b.tagged.shoff none
    rw [hplace.phoff, hplace.shoff]
  have hcut : b.toNextPage.offset = b.tagged.table.symtab := by
    rw [hplace.table_eq hv hsym]
    rfl
  have hshift : b.tagged.accepted.shiftSections b.toNextPage n = some (.ok e) := by
    rw [← htagged]
    exact (opened_accepted hv).alignSymtab_shift hpage h
  obtain ⟨hcuts, hshifted, hpointed, hchanged⟩ := shift_moves hv' hb'.laidOut hsym' hb'.nonempty
    hcut (ElfInfo.shiftSections_returns hshift)
  have hmoved := hshifted.moves hcuts
  have hvalid := hmoved.valid hv' hsym'
  refine ⟨⟨hvalid, hpointed.ok, hpointed.pht, hpointed.sht⟩, hpointed.cache,
    (hmoved.symtabNdx_eq hv' hsym').trans (hmoves.symtabNdx_eq hv hsym), hmoved.linked hv' hsym' hlinked', hmoved.linkable hv' hsym' hb', ?_,
    fun hno => absurd (hno.symm.trans hchanged) Bool.false_ne_true⟩
  rw [hshifted.table_symtab hcuts, hplace.table_eq hv hsym]
  show (b.table.symtab + (pageSize - b.table.symtab % pageSize)) % pageSize = 0
  have hrem : b.table.symtab % pageSize < pageSize := Nat.mod_lt _ (by decide)
  simp only [pageSize] at hrem ⊢
  omega

end ElfFile
