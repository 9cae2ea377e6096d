import Cs61.ElfSorted

/-! # The marks of the symbol table, and its program header

    Both sections of the table are marked as allocated, and the program header is
    found, or inserted before the first one that ends behind the address.  The
    search finds a header that was inserted. -/

namespace ElfFile

open ByteFiles Checks

variable {b b' : Buffer} {e e' : ElfInfo} {i k n p s loadaddr addr : Nat} {r : Range}

/-! ## Fields that were written -/

/-- The number in one of several fields that do not overlap. -/
theorem num_foldl_put {l : List (Field × Nat)} {d : Bytes} {x : Field × Nat} (hmem : x ∈ l)
    (hpair : l.Pairwise fun x y => y.1.off + y.1.bytes ≤ x.1.off ∨ x.1.off + x.1.bytes ≤ y.1.off)
    (hv : x.2 < 256 ^ x.1.bytes) :
    num (l.foldl (fun d x => put d x.1.off x.1.bytes x.2) d) x.1.off x.1.bytes = x.2 := by
  induction l generalizing d with
  | nil => exact absurd hmem List.not_mem_nil
  | cons y l ih =>
      obtain ⟨hfirst, hrest⟩ := List.pairwise_cons.mp hpair
      rw [List.foldl_cons]
      rcases List.mem_cons.mp hmem with rfl | hmem
      · refine (num_congr fun k hk => ElfInfo.foldl_put_of_not_mem fun y hy => ?_).trans (num_put hv)
        have hapart := hfirst y hy
        omega
      · exact ih hmem hrest

/-! ## The range of the table -/

/-- `first_offset`, `strtab_offset` and `last_offset`. -/
def Buffer.range (b : Buffer) : Range where
  first := b.val (shOffset b.shoff b.symtabNdx)
  strtab := b.val (shOffset b.shoff (b.symtabNdx + 1))
  last := (b.val (shOffset b.shoff (b.symtabNdx + 1)) + b.val (shSize b.shoff (b.symtabNdx + 1)))
    % 2 ^ 64

/-- The section of the string table. -/
theorem strtab_section (hv : Valid b) (hlinked : b.Linked) :
    b.symtabNdx + 1 < b.shnum ∧ b.val (shType b.shoff (b.symtabNdx + 1)) = shtStrtab := by
  have hlink := (hv.sections _ (Buffer.symtabNdx_lt hv)).link hlinked.type
  rwa [hlinked.link] at hlink

/-- The range that is found is that of the tables. -/
theorem Opened.range_eq (h : Opened e) (hlinked : e.Linked) :
    e.range e.symtabNdx = .ok e.toBuffer.range := by
  obtain ⟨-, -, hoffset, -⟩ := h.valid.header.fields_inside (Buffer.symtabNdx_lt h.valid)
  obtain ⟨-, -, hoffset', hsize', -⟩ :=
    h.valid.header.fields_inside (strtab_section h.valid hlinked).1
  rw [ElfInfo.range, h.sht, Buffer.get_bind hoffset, Buffer.get_bind hoffset',
    Buffer.get_bind hsize']
  rfl

/-- It stays where it is. -/
theorem InPlace.range_eq (h : InPlace b b') (hv : Valid b) (hlinked : b.Linked) :
    b'.range = b.range := by
  have hlt := Buffer.symtabNdx_lt hv
  obtain ⟨hlt', -⟩ := strtab_section hv hlinked
  rw [Buffer.range, Buffer.range, (h.refiled hv).symtabNdx_eq hv hlinked.toHasSymtab, h.shoff,
    h.offset hlt, h.offset hlt', h.bytes hlt']

/-- The order of symbols that are not touched. -/
theorem inOrder_same (h : InPlace b b') (hv : Valid b) (hsym : b.HasSymtab)
    (hsame : ∀ p, Covers b (.contents b.symtabNdx) p → b'.data p = b.data p) (hb : b.InOrder) :
    b'.InOrder := by
  have hsymbol : ∀ j, j < b.table.nsymtab → b'.symbol j = b.symbol j := by
    intro j hj
    have hbytes : num b'.data (entryOf b.table.symtab j).off sizeofSymbol
        = num b.data (entryOf b.table.symtab j).off sizeofSymbol :=
      num_congr fun k hk =>
        hsame _ (covers_entry hv hsym (Nat.lt_of_lt_of_le hj (Nat.mod_le _ _)) hk)
    rw [Buffer.symbol, Buffer.symbol, h.table_eq hv hsym]
    exact congrArg symbolOf hbytes
  intro k hk hlt
  rw [h.table_eq hv hsym] at hlt
  rw [hsymbol k hlt, hsymbol (k - 1) (by omega)]
  exact hb k hk hlt

/-! ## Marks -/

/-- The section is marked as allocated. -/
def Marked (b : Buffer) (s : Nat) : Prop := b.val (shFlags b.shoff s) &&& shfAlloc ≠ 0

/-- The fields that are written are in the file. -/
theorem flags_inside (hv : Valid b) (hs : s < b.shnum) :
    (shFlags b.shoff s).off + 8 ≤ b.size ∧ (shAddr b.shoff s).off + 8 ≤ b.size := by
  have hin := hv.header.section_inside hs
  simp only [shFlags, shAddr, sizeofSection] at hin ⊢
  omega

/-- What is marked is not marked again. -/
theorem Opened.markSection_marked (h : Opened e) (hs : s < e.shnum) (hmarked : Marked e.toBuffer s) :
    e.markSection s addr = .ok e := by
  rw [ElfInfo.markSection, h.sht, Buffer.get_bind (flags_inside h.valid hs).1]
  exact if_neg hmarked

/-- What is written for a mark. -/
def markFields (b : Buffer) (s addr : Nat) : List (Field × Nat) :=
  [(shFlags b.shoff s, b.val (shFlags b.shoff s) ||| shfAlloc), (shAddr b.shoff s, addr)]

/-- The file with the mark. -/
def Buffer.marked (b : Buffer) (s addr : Nat) : Bytes :=
  (markFields b s addr).foldl (fun d x => put d x.1.off x.1.bytes x.2) b.data

theorem mem_markFields {x : Field × Nat} (hx : x ∈ markFields b s addr) :
    x.1 = shFlags b.shoff s ∨ x.1 = shAddr b.shoff s := by
  rcases List.mem_cons.mp hx with rfl | hx
  · exact Or.inl rfl
  · rw [List.mem_singleton.mp hx]
    exact Or.inr rfl

/-- Nothing else is written. -/
theorem marked_apart (hp : p < sect b.shoff s + 8 ∨ sect b.shoff s + 24 ≤ p) :
    b.marked s addr p = b.data p := by
  refine ElfInfo.foldl_put_of_not_mem fun x hx => ?_
  rcases mem_markFields hx with heq | heq <;> rw [heq] <;> simp only [shFlags, shAddr] <;> omega

/-- Only the section header table is written. -/
theorem marked_region (hs : s < b.shnum) (hp : ¬ Covers b .sections p) :
    b.marked s addr p = b.data p := by
  refine marked_apart ?_
  by_contra hmeet
  have hcovers := LaidOut.covers_sect (b := b) hs (k := p - sect b.shoff s)
    (by simp only [sizeofSection]; omega)
  exact hp (by rwa [Nat.add_sub_cancel' (by omega)] at hcovers)

/-- The flag that is set. -/
theorem num_marked : num (b.marked s addr) (shFlags b.shoff s).off 8 &&& shfAlloc ≠ 0 := by
  have hread : num (b.marked s addr) (shFlags b.shoff s).off 8
      = b.val (shFlags b.shoff s) ||| shfAlloc := by
    refine num_foldl_put (x := (shFlags b.shoff s, _)) List.mem_cons_self ?_ ?_
    · refine List.pairwise_cons.mpr ⟨fun y hy => ?_, List.pairwise_singleton _ _⟩
      rw [List.mem_singleton.mp hy]
      simp only [shFlags, shAddr]
      omega
    · exact Nat.or_lt_two_pow (n := 64) (num_lt b.data (shFlags b.shoff s).off 8) (by decide)
  rw [hread, Nat.and_comm, Nat.and_or_distrib_left, shfAlloc]
  intro hzero
  exact absurd (Nat.or_eq_zero_iff.mp hzero).2 (by decide)

/-- The flags of another section. -/
theorem num_marked_other (his : i ≠ s) :
    num (b.marked s addr) (shFlags b.shoff i).off 8 = b.val (shFlags b.shoff i) := by
  refine num_congr fun k hk => marked_apart ?_
  simp only [shFlags, sect, sizeofSection]
  omega

section OneMark

variable (hv : Valid b) (hlaid : LaidOut b) (hs : s < b.shnum)
  (htype : b.val (shType b.shoff s) ≠ shtProgbits)

include hv hlaid hs htype

/-- A section that holds no records is marked in place. -/
theorem marked_inPlace (hsym : b.HasSymtab) (hsize : b'.size = b.size)
    (hdata : b'.data = b.marked s addr) : InPlace b b' := by
  have hregion : ∀ p, ¬ Covers b .sections p → b'.data p = b.data p := by
    rw [hdata]
    exact fun p hp => marked_region hs hp
  refine InPlace.within hv hlaid Region.noConfusion hsize hregion (fun p hp hsolid => ?_)
    (reordered_apart hv hlaid hsym Region.noConfusion hregion)
  rw [hdata]
  cases hsolid with
  | header hlt _ => exact Region.noConfusion (hlaid .header .sections p hlt hp)
  | entry hi hk =>
      refine marked_apart ?_
      simp only [sect, sizeofSection]
      omega
  | @address i k hi hprogbits hk hk' =>
      have hne : i ≠ s := fun heq => htype (heq ▸ hprogbits)
      refine marked_apart ?_
      simp only [sect, sizeofSection]
      omega
  | contents hcontents _ _ => exact Region.noConfusion (hlaid _ _ p hcontents hp)

end OneMark

/-- A section that is not marked yet is marked. -/
theorem Opened.markSection_eq (h : Opened e) (hs : s < e.shnum)
    (hmarked : ¬ Marked e.toBuffer s) : e.markSection s addr
      = .ok (ElfInfo.touched { e with data := e.toBuffer.marked s addr }) := by
  obtain ⟨hflags, haddr⟩ := flags_inside h.valid hs
  have hstore := ElfInfo.storeAll_ok (e := e) (l := markFields e.toBuffer s addr) fun x hx => by
    rcases mem_markFields hx with heq | heq <;> rw [heq]
    · exact hflags
    · exact haddr
  conv_lhs => rw [ElfInfo.markSection, h.sht, Buffer.get_bind hflags]
  show (if e.val (shFlags e.shoff s) &&& shfAlloc = 0 then
    e.storeAll (markFields e.toBuffer s addr) >>= _ else _) = _
  rw [if_pos (not_not.mp hmarked), hstore]
  rfl

/-- **A MARK** on a section that holds no records. -/
theorem Cached.marks (h : Cached e) (addr : Nat) (hlaid : LaidOut e.toBuffer) (hs : s < e.shnum)
    (htype : e.val (shType e.shoff s) ≠ shtProgbits) :
    ∃ e', e.markSection s addr = .ok e' ∧ Edited e e' ∧ Marked e'.toBuffer s
      ∧ (∀ i, i < e.shnum → Marked e.toBuffer i → Marked e'.toBuffer i)
      ∧ (e.InOrder → e'.InOrder) ∧ e'.phnum = e.phnum := by
  by_cases hmarked : Marked e.toBuffer s
  · exact ⟨e, h.toOpened.markSection_marked hs hmarked, Edited.refl h hlaid, hmarked,
      fun _ _ => id, id, rfl⟩
  have hplace : InPlace e.toBuffer
      (ElfInfo.touched { e with data := e.toBuffer.marked s addr }).toBuffer :=
    marked_inPlace h.valid hlaid hs htype h.symtab rfl rfl
  have hcontents : ∀ i p, Covers e.toBuffer (.contents i) p →
      e.toBuffer.marked s addr p = e.data p := fun i p hp => marked_region hs fun hsections =>
    Region.noConfusion (hlaid _ _ p hp hsections)
  have hself : Marked (ElfInfo.touched { e with data := e.toBuffer.marked s addr }).toBuffer s := by
    rw [Marked, hplace.shoff]
    exact num_marked
  refine ⟨_, h.toOpened.markSection_eq hs hmarked, ⟨hplace, fun i p hp _ => hcontents i p hp, rfl,
    rfl, rfl, rfl, fun hchanged => Bool.noConfusion hchanged⟩, hself, fun i _ hmarked' => ?_,
    inOrder_same hplace h.valid h.symtab fun p hp => hcontents _ p hp,
    phnum_apart hlaid Region.noConfusion fun p hp => marked_region hs hp⟩
  by_cases his : i = s
  · rw [his]
    exact hself
  · rw [Marked, hplace.shoff]
    have hsame : num (e.toBuffer.marked s addr) (shFlags e.shoff i).off 8
        = e.val (shFlags e.shoff i) := num_marked_other his
    show num (e.toBuffer.marked s addr) (shFlags e.shoff i).off 8 &&& shfAlloc ≠ 0
    rw [hsame]
    exact hmarked'

end ElfFile
