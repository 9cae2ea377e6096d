import Cs61.ElfIdempotent

/-! # What `mkchickadeesymtab` keeps

    A run that succeeds leaves a file with the same sections and the same symbols.
    Every section has the contents it had, apart from the 32 bytes of the record and
    the order of the symbols: the first one stays where it was, and the others are
    in order.  What the record says is where the tables will be loaded
    (`mkchickadeesymtab_carries`). -/

namespace ElfFile

open ByteFiles Checks LoopRules ElfSymbols

variable {b b' b'' : Buffer} {e e' e₁ e₂ : ElfInfo} {o : Options} {name : CString} {c : Cut}
  {i j k m n p s addr loadaddr : Nat} {r : Range} {σ τ : Nat → Nat}

/-! ## Files that are carried over -/

/-- Byte `k` of section `i` belongs to the record of a symbol with the name. -/
def InRecord (b : Buffer) (name : CString) (i k : Nat) : Prop :=
  ∃ j, Object b b.table name j ∧ sectionOf b b.table j = i
    ∧ valueOf b b.table j ≤ b.val (shAddr b.shoff i) + k
    ∧ b.val (shAddr b.shoff i) + k < valueOf b b.table j + sizeofSymtabref

/-- `b'` has the sections of `b` with their contents, and its symbols with the first
    one in its place.  Only records may differ. -/
structure Carried (b b' : Buffer) (name : CString) : Prop where
  refiled : Refiled b b'
  symbols : ∃ σ, Shuffled b b' σ ∧ σ 0 = 0
  progbits : ∀ i, i < b.shnum → b.val (shType b.shoff i) = shtProgbits →
    ∀ k, k < b.val (shSize b.shoff i) → ¬ InRecord b name i k →
      b'.data (b'.val (shOffset b'.shoff i) + k) = b.data (b.val (shOffset b.shoff i) + k)

section Trans

variable (h : Refiled b b') (hv : Valid b) (hsym : b.HasSymtab)

include h hv hsym

/-- One order after the other. -/
theorem Shuffled.trans (hσ : Shuffled b b' σ) (hτ : Shuffled b' b'' τ) :
    Shuffled b b'' (σ ∘ τ) := by
  have hndx := h.symtabNdx_eq hv hsym
  have hcount : (b'.tableOf b'.symtabNdx).nsymtab = (b.tableOf b.symtabNdx).nsymtab := by
    show b'.val (shSize b'.shoff b'.symtabNdx) / sizeofSymbol = _
    rw [hndx, h.bytes (Buffer.symtabNdx_lt hv)]
    rfl
  have hmaps : ∀ j, j < (b.tableOf b.symtabNdx).nsymtab → τ j < (b.tableOf b.symtabNdx).nsymtab := by
    intro j hj
    rw [← hcount] at hj ⊢
    exact hτ.maps j hj
  refine ⟨fun j hj => hσ.maps _ (hmaps j hj), ?_, fun j hj k hk => ?_⟩
  · have hknown := hτ.known
    rw [h.nsymtab_eq hv hsym] at hknown
    exact hσ.known.comp hknown
  · have hbytes := hτ.bytes j (by rwa [hcount]) k hk
    rw [hndx] at hbytes
    exact hbytes.trans (hσ.bytes (τ j) (hmaps j hj) k hk)

/-- One move after the other. -/
theorem Refiled.trans (h' : Refiled b' b'') : Refiled b b'' where
  tables := h'.tables
  header := fun x hx => (h'.header x hx).trans (h.header x hx)
  programs := h'.programs
  entries := fun i hi k hk => (h'.entries i (h.shnum.symm ▸ hi) k hk).trans (h.entries i hi k hk)
  addresses := fun i hi htype =>
    (h'.addresses i (h.shnum.symm ▸ hi) ((h.type hi).trans htype)).trans (h.addresses i hi htype)
  inside := by
    intro i hi hbacked
    have hin := h'.inside i (h.shnum.symm ▸ hi) ((h.fileBacked hi).mpr hbacked)
    rwa [h.bytes hi] at hin
  contents := by
    intro i hi hbacked htype hndx k hk
    refine (h'.contents i (h.shnum.symm ▸ hi) ((h.fileBacked hi).mpr hbacked) ?_ ?_ k ?_).trans
      (h.contents i hi hbacked htype hndx k hk)
    · rwa [h.type hi]
    · rwa [h.symtabNdx_eq hv hsym]
    · rwa [h.bytes hi]
  symbols := by
    obtain ⟨σ, hσ⟩ := h.symbols
    obtain ⟨τ, hτ⟩ := h'.symbols
    exact ⟨σ ∘ τ, hσ.trans h hv hsym hτ⟩

/-- The records stand at the same places of their sections. -/
theorem Refiled.inRecord_iff (hi : i < b.shnum) (htype : b.val (shType b.shoff i) = shtProgbits) :
    InRecord b' name i k ↔ InRecord b name i k := by
  obtain ⟨σ, hσ⟩ := h.symbols
  rw [InRecord, InRecord, h.addresses i hi htype]
  constructor
  · rintro ⟨j, hobject, hsection, hfrom, hupto⟩
    obtain ⟨hj, hold⟩ := (h.object_iff hv hsym hσ).mp hobject
    rw [h.valueOf_eq hv hsym hσ hj] at hfrom hupto
    rw [h.sectionOf_eq hv hsym hσ hj] at hsection
    exact ⟨σ j, hold, hsection, hfrom, hupto⟩
  · rintro ⟨j, hobject, hsection, hfrom, hupto⟩
    obtain ⟨j, hj, rfl⟩ := hσ.known.surjOn hobject.1
    rw [← h.valueOf_eq hv hsym hσ hj] at hfrom hupto
    rw [← h.sectionOf_eq hv hsym hσ hj] at hsection
    exact ⟨j, (h.object_iff hv hsym hσ).mpr ⟨hj, hobject⟩, hsection, hfrom, hupto⟩

end Trans

/-- One part of the tool after the other. -/
theorem Carried.trans (h : Carried b b' name) (hv : Valid b) (hsym : b.HasSymtab)
    (h' : Carried b' b'' name) : Carried b b'' name := by
  have hr := h.refiled
  obtain ⟨σ, hσ, hzero⟩ := h.symbols
  obtain ⟨τ, hτ, hzero'⟩ := h'.symbols
  refine ⟨hr.trans hv hsym h'.refiled, ⟨σ ∘ τ, hσ.trans hr hv hsym hτ, ?_⟩, ?_⟩
  · rw [Function.comp_apply, hzero', hzero]
  · intro i hi htype k hk hfree
    refine (h'.progbits i (hr.shnum.symm ▸ hi) ((hr.type hi).trans htype) k ?_ ?_).trans
      (h.progbits i hi htype k hk hfree)
    · rwa [hr.bytes hi]
    · rwa [hr.inRecord_iff hv hsym hi htype]

/-- Parts that are moved. -/
theorem Moves.carried (h : Moves b b') (hσ : Shuffled b b' id) : Carried b b' name :=
  ⟨h.toRefiled, ⟨id, hσ, rfl⟩, fun i hi htype k hk _ => h.records i hi htype k hk⟩

/-- A step in place that touches no record. -/
theorem InPlace.carried (h : InPlace b b') (hv : Valid b) (hσ : Reordered b b' σ) (hzero : σ 0 = 0)
    (hrecords : ∀ i p, Covers b (.contents i) p → b.val (shType b.shoff i) = shtProgbits →
      b'.data p = b.data p) : Carried b b' name := by
  refine ⟨h.refiled hv, ⟨σ, h.shuffled hv hσ, hzero⟩, fun i hi htype k hk _ => ?_⟩
  rw [h.shoff, h.offset hi]
  exact hrecords i _ ⟨hi, fileBacked_of_type htype (by decide), by omega, by omega⟩ htype

/-- A part that does nothing. -/
theorem Carried.refl (hv : Valid b) (hlaid : LaidOut b) (hsym : b.HasSymtab) :
    Carried b b name := by
  have hsame : Reordered b b id := reordered_id hv hsym fun _ _ => rfl
  have hplace : InPlace b b :=
    InPlace.of_solid hv hlaid rfl (fun _ _ => rfl) rfl ⟨id, hsame⟩
  exact hplace.carried hv hsame rfl fun _ _ _ _ => rfl

/-! ## The alignment -/

/-- A shift keeps the order of the symbols. -/
theorem Shifted.shuffled (h : Shifted b c b') (hc : Cuts b c) : Shuffled b b' id := by
  refine ⟨fun _ hj => hj, Set.bijOn_id _, fun j hj k hk => ?_⟩
  obtain ⟨hi, hbacked, -, hlast⟩ := covers_entry hc.valid hc.symtab hj hk
  have hlast : b.val (shOffset b.shoff b.symtabNdx) + sizeofSymbol * j + k
      < b.val (shOffset b.shoff b.symtabNdx) + b.val (shSize b.shoff b.symtabNdx) := hlast
  have hsame := h.contents hc hi hbacked (k := sizeofSymbol * j + k) (by omega)
  rwa [← Nat.add_assoc, ← Nat.add_assoc] at hsame

/-- The alignment moves all parts, and the record has the address that it had. -/
theorem alignSymtab_carries (hv : Valid b) (hlinked : b.Linked) (hb : Linkable b o)
    (h : b.accepted.alignSymtab b.symtabNdx n = some (.ok e)) :
    Carried b e.toBuffer o.name
      ∧ ∀ a, LoadAddress e.toBuffer o.name o.loadaddr a → LoadAddress b o.name o.loadaddr a := by
  have hsym := hlinked.toHasSymtab
  by_cases hpage : b.table.symtab % pageSize = 0
  · obtain rfl := Except.ok.inj (Option.some.inj
      (h.symm.trans ((opened_accepted hv).alignSymtab_page (n := n) hpage)))
    exact ⟨Carried.refl hv hb.laidOut hsym, fun _ ha => ha⟩
  have hplace := tagged_inPlace hv hb.laidOut hsym
  have hmoves := tagged_moves hv hb.laidOut hsym
  have hb' := hmoves.linkable hv hsym hb
  have hsym' := hmoves.hasSymtab hv hsym
  have hv' := hmoves.valid hv hsym
  have htagged : b.accepted.set (shAddralign b.shoff b.symtabNdx) pageSize
      = b.tagged.accepted := by
    show ElfInfo.mk b.tagged false true b.phoff b.shoff none
      = ElfInfo.mk b.tagged false true b.tagged.phoff b.tagged.shoff none
    rw [hplace.phoff, hplace.shoff]
  have hcut : b.toNextPage.offset = b.tagged.table.symtab := by
    rw [hplace.table_eq hv hsym]
    rfl
  have hshift : b.tagged.accepted.shiftSections b.toNextPage n = some (.ok e) := by
    rw [← htagged]
    exact (opened_accepted hv).alignSymtab_shift hpage h
  obtain ⟨hcuts, hshifted, -, -⟩ := shift_moves hv' hb'.laidOut hsym' hb'.nonempty hcut
    (ElfInfo.shiftSections_returns hshift)
  have hmoved := hshifted.moves hcuts
  -- neither step touches the table
  have hsame : Shuffled b b.tagged id := hplace.shuffled hv (reordered_id hv hsym fun p hp =>
    tagged_apart hv fun hsections => Region.noConfusion (hb.laidOut _ _ p hp hsections))
  refine ⟨(hmoves.carried hsame).trans hv hsym (hmoved.carried (hshifted.shuffled hcuts)), ?_⟩
  intro a ha
  exact hmoves.loadAddress hv hsym hb.referenced (hmoved.loadAddress hv' hsym' hb'.referenced ha)

/-! ## The record -/

namespace Aligned

variable (h : Aligned b o e)

include h

/-- Nothing outside the record is written. -/
theorem filled_carried {x : Filled} (hobject : Object e.toBuffer e.table o.name k)
    (haccepted : Accepted e.toBuffer e.table k) (hapart : ∀ p, p < place e.toBuffer e.table k
      ∨ place e.toBuffer e.table k + sizeofSymtabref ≤ p → x.data p = e.data p) :
    Carried e.toBuffer (e.tabled.withFilled x).toBuffer o.name := by
  have hplace := h.inPlace_filled hobject haccepted hapart
  have hin := h.inside_accepted hobject haccepted
  refine ⟨hplace.refiled h.valid, ⟨id, h.shuffled_filled hobject haccepted hapart, rfl⟩, ?_⟩
  intro i hi htype m hm hfree
  rw [hplace.shoff, hplace.offset hi]
  refine hapart _ ?_
  by_contra hmeet
  obtain ⟨hfirst, hlast⟩ := not_or.mp hmeet
  rw [Nat.not_lt] at hfirst
  rw [Nat.not_le] at hlast
  have hcontents : Covers e.toBuffer (.contents i) (e.val (shOffset e.shoff i) + m) :=
    ⟨hi, fileBacked_of_type htype (by decide), by omega, by omega⟩
  have hrecord := record_covered hobject.2.2 hin hfirst hlast
  have hsection := Region.contents.inj (h.linkable.laidOut _ _ _ hrecord hcontents)
  have hfrom := hin.2.1
  rw [place, addrOf, hsection] at hfirst hlast
  rw [addrOf, hsection] at hfrom
  exact hfree ⟨k, hobject, hsection, by omega, by omega⟩

/-- **`rewrite_symtabref`** touches nothing but the record. -/
theorem rewrites_carried (hr : Returns (e.rewriteSymtabref (e.request o) o.loadaddr)
    (.ok (m, loadaddr, e'))) :
    Carried e.toBuffer e'.toBuffer o.name ∧ LoadAddress e.toBuffer o.name o.loadaddr loadaddr := by
  have hsym := h.linked.toHasSymtab
  by_cases hobjects : ∃ k, Object e.toBuffer e.table o.name k
  · obtain ⟨k, hobject⟩ := hobjects
    have honce : ∀ j, Object e.toBuffer e.table o.name j → j = k :=
      fun j hj => h.linkable.referenced.once j k hj hobject
    by_cases haccepted : Accepted e.toBuffer e.table k
    · have hone := h.rewrite_one (e.request o) o.loadaddr h.cache hsym hobject
        honce h.linkable.laidOut haccepted (h.inside_accepted hobject haccepted)
      obtain ⟨-, hrest⟩ := Prod.mk.inj (Except.ok.inj (hr.unique hone))
      obtain ⟨rfl, rfl⟩ := Prod.mk.inj hrest
      exact ⟨h.filled_carried hobject haccepted fun p => filledOut_apart,
        loadAddress_filledOut hobject h.linkable⟩
    · obtain ⟨halt, hrefused⟩ :=
        h.rewrite_refused (e.request o) o.loadaddr h.cache hsym hobject honce haccepted
      cases hr.unique hrefused
  · have hno : ∀ j, ¬ Object e.toBuffer e.table o.name j := fun j hj => hobjects ⟨j, hj⟩
    have hnone := h.rewrite_none (e.request o) o.loadaddr h.cache hsym hno
    obtain ⟨-, hrest⟩ := Prod.mk.inj (Except.ok.inj (hr.unique hnone))
    obtain ⟨rfl, rfl⟩ := Prod.mk.inj hrest
    refine ⟨Carried.refl h.valid h.linkable.laidOut hsym, ?_⟩
    rw [LoadAddress]
    split_ifs with hgiven
    · rfl
    · exact ⟨fun j hj => absurd hj (hno j), fun _ => not_not.mp hgiven⟩

end Aligned

/-! ## The steps behind the record -/

/-- Sorting carries the file over. -/
theorem Edited.carried (hed : Edited e e') (hv : Valid e.toBuffer)
    (hσ : Reordered e.toBuffer e'.toBuffer σ) (hzero : σ 0 = 0) :
    Carried e.toBuffer e'.toBuffer name :=
  hed.inPlace.carried hv hσ hzero hed.records

namespace Cached

variable (h : Cached e) (hlaid : LaidOut e.toBuffer)

include h hlaid

/-- The first symbol is not sorted. -/
theorem sort_carried (hok : e.sortSymtab = .ok e') : Carried e.toBuffer e'.toBuffer name := by
  obtain ⟨e₁, hsort, hed, -, -⟩ := h.sorts hlaid
  obtain rfl := Except.ok.inj (hsort.symm.trans hok)
  by_cases hordered : e.InOrder
  · obtain rfl := Except.ok.inj ((h.sortSymtab_inOrder hordered).symm.trans hok)
    exact Carried.refl h.valid hlaid h.symtab
  · have hperm : (e.sortable.mergeSort fun a b => !symbolLess b a).Perm e.sortable :=
      List.mergeSort_perm _ _
    have hsorted := Except.ok.inj ((h.sortSymtab_unordered hordered).symm.trans hok)
    exact hed.carried h.valid (reordered_of_perm hperm (hsorted ▸ rfl))
      (sortedFrom_of_not hperm (by omega))

/-- So does marking a section. -/
theorem mark_carried (hs : s < e.shnum) (htype : e.val (shType e.shoff s) ≠ shtProgbits)
    (hok : e.markSection s addr = .ok e') : Carried e.toBuffer e'.toBuffer name := by
  obtain ⟨e₁, hmark, hed, -⟩ := h.marks addr hlaid hs htype
  obtain rfl := Except.ok.inj (hmark.symm.trans hok)
  by_cases hmarked : Marked e.toBuffer s
  · obtain rfl := Except.ok.inj ((h.toOpened.markSection_marked hs hmarked).symm.trans hok)
    exact Carried.refl h.valid hlaid h.symtab
  · have hwritten := Except.ok.inj ((h.toOpened.markSection_eq hs hmarked).symm.trans hok)
    refine hed.carried h.valid (reordered_id h.valid h.symtab fun p hp => ?_) rfl
    rw [← hwritten]
    exact marked_region hs fun hsections => Region.noConfusion (hlaid _ _ p hp hsections)

/-- A program header is found, or inserted before the contents of all sections. -/
theorem addProgram_carried (hphnum : e.phnum < 65535) (haddr : loadaddr + r.size < 2 ^ 64)
    (hfirst : r.first < 2 ^ 64) (hok : e.addProgram r loadaddr = .ok e') :
    Carried e.toBuffer e'.toBuffer name := by
  obtain ⟨hed, -⟩ := h.addProgram_ok hlaid hphnum haddr hfirst hok
  obtain ⟨i, hfind, hstops⟩ := h.findProgramFrom_gives loadaddr e.phnum 0 (Nat.zero_add _)
    fun k hk => absurd hk (Nat.not_lt_zero k)
  rw [ElfInfo.addProgram, Buffer.get_bind (h.valid.header.inside ePhnum (by decide))] at hok
  obtain ⟨i', hfind', hok⟩ := ok_of_bind hok
  obtain rfl := Except.ok.inj (hfind.symm.trans hfind')
  obtain ⟨found, -, hok⟩ := ok_of_bind hok
  cases found with
  | true =>
      obtain rfl := Except.ok.inj hok
      exact Carried.refl h.valid hlaid h.symtab
  | false =>
      obtain ⟨no, hno, hroom⟩ := h.room
      obtain ⟨no', hno', hok⟩ := ok_of_bind (show (e.noRoom >>= fun no =>
        if no then _ else e.insertProgram i loadaddr r) = .ok e' from hok)
      obtain rfl := Except.ok.inj (hno.symm.trans hno')
      cases no with
      | true => cases hok
      | false =>
          have hinserted := Except.ok.inj
            ((h.insertProgram_eq (hroom rfl) hphnum hstops.1).symm.trans hok)
          refine hed.carried h.valid (reordered_id h.valid h.symtab fun p hp => ?_) rfl
          rw [← hinserted]
          exact inserted_contents h.valid hlaid (hroom rfl) hstops.1 hp

end Cached

namespace Finishing

variable {e₀ : ElfInfo} (h : Finishing o loadaddr e₀ e)

include h

/-- The file is sorted, and gets no program header by that. -/
theorem sort_step (hok : e.sortSymtab = .ok e') : Finishing o loadaddr e₀ e'
    ∧ e'.phnum = e.phnum := by
  obtain ⟨e₁, hsort, hed, -, hphnum⟩ := h.cached.sorts h.settled.laidOut
  obtain rfl := Except.ok.inj (hsort.symm.trans hok)
  exact ⟨h.step hed, hphnum⟩

/-- Both sections are marked. -/
theorem marks_carried (hok : e.markSymtab e₀.symtabNdx r loadaddr = .ok e') :
    Carried e.toBuffer e'.toBuffer name := by
  obtain ⟨e₁, hmark₁, hmark₂⟩ := ok_of_bind hok
  rw [← h.ndx] at hmark₁
  have hlt := Buffer.symtabNdx_lt h.cached.valid
  have htype : e.val (shType e.shoff e.symtabNdx) ≠ shtProgbits := by
    rw [h.cached.symtab.type]
    decide
  obtain ⟨e₁', hsame₁, hed₁, -⟩ := h.cached.marks loadaddr h.settled.laidOut hlt htype
  obtain rfl := Except.ok.inj (hmark₁.symm.trans hsame₁)
  have h₁ := h.step hed₁
  obtain ⟨hlt', hstrtab⟩ := strtab_section h₁.cached.valid h₁.settled.linked
  rw [← h₁.ndx] at hmark₂
  exact (h.cached.mark_carried h.settled.laidOut hlt htype hmark₁).trans h.cached.valid
    h.cached.symtab (h₁.cached.mark_carried h₁.settled.laidOut hlt' (by rw [hstrtab]; decide) hmark₂)

/-- **`finish`** carries the file over. -/
theorem finish_carried (hphnum : e.phnum < 65535)
    (haddr : loadaddr + e₀.toBuffer.range.size < 2 ^ 64)
    (hok : e.finish e₀.symtabNdx e₀.toBuffer.range loadaddr = .ok e') :
    Carried e.toBuffer e'.toBuffer name := by
  obtain ⟨e₁, hsort, hok⟩ := ok_of_bind hok
  obtain ⟨h₁, hphnum₁⟩ := h.sort_step hsort
  have hsorted : Carried e.toBuffer e₁.toBuffer name :=
    h.cached.sort_carried h.settled.laidOut hsort
  have hok : (if loadaddr ≠ 0 then
      e₁.markSymtab e₀.symtabNdx e₀.toBuffer.range loadaddr >>= _ else Except.ok e₁)
    = Except.ok e' := hok
  split_ifs at hok with hzero
  · obtain ⟨e₂, hmark, hadd⟩ := ok_of_bind hok
    obtain ⟨h₂, hphnum₂, -⟩ := h₁.marks hmark
    have hmarked : Carried e₁.toBuffer e₂.toBuffer name := h₁.marks_carried hmark
    have hadded : Carried e₂.toBuffer e'.toBuffer name :=
      h₂.cached.addProgram_carried h₂.settled.laidOut (by rw [hphnum₂, hphnum₁]; exact hphnum)
        haddr (num_lt _ _ 8) hadd
    exact hsorted.trans h.cached.valid h.cached.symtab
      (hmarked.trans h₁.cached.valid h₁.cached.symtab hadded)
  · obtain rfl := Except.ok.inj hok
    exact hsorted

end Finishing

/-! ## The run -/

/-- **A RUN** that succeeds carries the file over. -/
theorem EditSteps.carries (hb : Linkable b o) (h : EditSteps b o n loadaddr e₁ e₂ e) :
    Carried b e.toBuffer o.name ∧ LoadAddress b o.name o.loadaddr loadaddr := by
  have haddr := h.rewritten.address
  rw [← h.rewritten.range] at haddr
  obtain ⟨m, hrewrites⟩ := h.rewrites
  -- the three parts of the run, one behind the other
  obtain ⟨haligned, haddress⟩ := alignSymtab_carries h.valid h.linked hb h.aligns
  obtain ⟨hrecorded, hload⟩ := h.aligned.rewrites_carried hrewrites
  have hfinished : Carried e₂.toBuffer e.toBuffer o.name :=
    (Finishing.start h.rewritten.cached h.rewritten.settled).finish_carried h.rewritten.phnum
      haddr h.finishes
  exact ⟨haligned.trans h.valid h.linked.toHasSymtab
    (hrecorded.trans h.aligned.valid h.aligned.linked.toHasSymtab hfinished), haddress _ hload⟩

/-- The symbols of a file that is carried over, with their names. -/
theorem Carried.same_symbols (h : Carried b b' name) (hv : Valid b) (hsym : b.HasSymtab) :
    b'.table.nsymtab = b.table.nsymtab
      ∧ ∃ σ, Set.BijOn σ (Set.Iio b.table.nsymtab) (Set.Iio b.table.nsymtab) ∧ σ 0 = 0
        ∧ ∀ j, j < b.table.nsymtab → b'.symbol j = b.symbol (σ j)
          ∧ ∀ s, Named b' b'.table s j ↔ Named b b.table s (σ j) := by
  have hr := h.refiled
  obtain ⟨σ, hσ, hzero⟩ := h.symbols
  refine ⟨hr.nsymtab_eq hv hsym, σ, hσ.known, hzero, fun j hj => ⟨?_, fun s => ?_⟩⟩
  · have hbytes := hr.val_symbol hv hsym hσ hj (o := 0) (w := sizeofSymbol) (by decide)
    rw [Nat.add_zero, Nat.add_zero] at hbytes
    rw [Buffer.symbol, Buffer.symbol, entryOf, entryOf, hbytes]
  · exact hr.named_iff hv hsym hσ hj

/-- **THE OUTPUT** of the program is the file it was given, as a kernel reads it: the
    same sections and the same symbols, the symbols in order, and a record that
    says where they are. -/
theorem mkchickadeesymtab_carries {B : List UInt8} (hb : Linkable b o)
    (h : b.mkchickadeesymtab o n = some (.ok B)) :
    ∃ b' loadaddr, b'.contents = B ∧ LoadAddress b o.name o.loadaddr loadaddr
      ∧ Carried b b' o.name ∧ b'.InOrder ∧ Recorded b' (b'.request o) loadaddr
      ∧ (loadaddr ≠ 0 → HasProgram b' loadaddr b'.range) := by
  obtain ⟨x, hedit, hx⟩ := Option.map_eq_some_iff.mp h
  cases x with
  | error s => cases hx
  | ok e =>
      obtain ⟨loadaddr, e₁, e₂, hsteps⟩ := edit_steps hb hedit
      obtain ⟨hs, hf, -⟩ := hsteps.ok
      obtain ⟨hcarried, haddr⟩ := hsteps.carries hb
      refine ⟨e.toBuffer, loadaddr, ?_, haddr, hcarried, hf.inOrder, hs.recorded, hf.program⟩
      rw [← hsteps.written]
      exact Except.ok.inj hx

theorem mkchickadeesymtab_carries_linked : ∃ b' loadaddr,
    b'.contents = (linked.edited asked 10).contents
      ∧ LoadAddress linked asked.name asked.loadaddr loadaddr ∧ Carried linked b' asked.name
      ∧ b'.InOrder ∧ Recorded b' (b'.request asked) loadaddr
      ∧ (loadaddr ≠ 0 → HasProgram b' loadaddr b'.range) :=
  mkchickadeesymtab_carries linked_linkable linked_output

end ElfFile
