import Cs61.ElfSettled
import Cs61.SymtabFilled

/-! # `mkchickadeesymtab` on its own output

    Each step of a run leaves what the same step of the next run looks for: the
    record holds the address, and behind `finish` the symbols are in order, marked,
    and have their program header.  So the next run does nothing
    (`mkchickadeesymtab_idempotent`). -/

namespace ElfFile

open ByteFiles Checks LoopRules

variable {b b' : Buffer} {e e' e₁ e₂ : ElfInfo} {o : Options} {j k m n p loadaddr : Nat}

/-! ## The record -/

/-- The distance of two offsets, in 64 bits. -/
theorem sub_wrapped {first last size : Nat} (hle : first ≤ last) (hlt : last + size < 2 ^ 64) :
    ((last + size) % 2 ^ 64 + (2 ^ 64 - first)) % 2 ^ 64 = last + size - first := by
  omega

/-- The size that is written is that of the tables. -/
theorem range_size (hv : Valid b) (hlinked : b.Linked)
    (hfollowed : b.table.symtab ≤ b.table.symstrtab) : b.range.size = b.tableSize := by
  have hlt := Buffer.symtabNdx_lt hv
  obtain ⟨hlink, htype⟩ := (hv.sections _ hlt).link hlinked.type
  have hin := hv.contents_inside hlink (fileBacked_of_type htype (by decide))
  have hfits := b.fits
  have hsmall := b.small
  rw [hlinked.link] at hin
  have hfollowed : b.val (shOffset b.shoff b.symtabNdx)
      ≤ b.val (shOffset b.shoff (b.val (shLink b.shoff b.symtabNdx))) := hfollowed
  show ((b.val (shOffset b.shoff (b.symtabNdx + 1)) + b.val (shSize b.shoff (b.symtabNdx + 1)))
      % 2 ^ 64 + (2 ^ 64 - b.val (shOffset b.shoff b.symtabNdx))) % 2 ^ 64
    = b.val (shOffset b.shoff (b.val (shLink b.shoff b.symtabNdx)))
      + b.val (shSize b.shoff (b.val (shLink b.shoff b.symtabNdx)))
      - b.val (shOffset b.shoff b.symtabNdx)
  rw [hlinked.link] at hfollowed ⊢
  exact sub_wrapped hfollowed (by omega)

/-- The address that the record holds, or will hold. -/
theorem loadAddress_small (hb : Linkable b o) (ha : LoadAddress b o.name o.loadaddr loadaddr) :
    loadaddr < 2 ^ 64 := by
  have haddr := hb.address loadaddr ha
  omega

/-- What is written for the symbol `k`. -/
def ElfInfo.filledOut (e : ElfInfo) (o : Options) (k : Nat) : Filled :=
  (e.unfilled o.loadaddr).add (e.request o) e.table.nsymtab (place e.toBuffer e.table k)

/-- The record that is written. -/
theorem num_added {q : Request} {x : Filled} {off : Nat}
    (hlt : q.record (x.add q n off).loadaddr n < 256 ^ sizeofSymtabref) :
    num (x.add q n off).data off sizeofSymtabref = q.record (x.add q n off).loadaddr n :=
  num_put hlt

/-- Only the record is written. -/
theorem filledOut_apart (hp : p < place e.toBuffer e.table k
    ∨ place e.toBuffer e.table k + sizeofSymtabref ≤ p) : (e.filledOut o k).data p = e.data p := by
  rw [ElfInfo.filledOut, Filled.add_apart hp, ElfInfo.unfilled]

/-- The record that is written. -/
theorem filledOut_record (hsmall : (e.filledOut o k).loadaddr < 2 ^ 64) :
    num (e.filledOut o k).data (place e.toBuffer e.table k) sizeofSymtabref
      = (e.request o).record (e.filledOut o k).loadaddr e.table.nsymtab := by
  have hsize : (e.request o).size < 2 ^ 64 := by
    rw [Buffer.request, Range.size]
    exact Nat.mod_lt _ (Nat.two_pow_pos 64)
  exact num_added (record_lt hsize hsmall (table_count_lt e.toBuffer))

/-- What `rewrite_symtabref` leaves of an aligned file. -/
structure Rewritten (e e' : ElfInfo) (o : Options) (loadaddr : Nat) : Prop where
  cached : Cached e'
  settled : Settled e'.toBuffer o loadaddr
  ndx : e'.symtabNdx = e.symtabNdx
  range : e'.toBuffer.range = e.toBuffer.range
  phnum : e'.phnum < 65535
  address : loadaddr + e.toBuffer.range.size < 2 ^ 64
  noted : e'.changed = false → e' = e.tabled

namespace Aligned

variable (h : Aligned b o e)

include h

/-- The tables fit at their address. -/
theorem address (ha : LoadAddress e.toBuffer o.name o.loadaddr loadaddr) :
    loadaddr + e.toBuffer.range.size < 2 ^ 64 := by
  have hfollowed := h.linkable.followed
  rw [range_size h.valid h.linked (by omega)]
  exact h.linkable.address loadaddr ha

/-- Without a symbol of that name nothing is recorded. -/
theorem rewritten_none (hno : ∀ j, ¬ Object e.toBuffer e.table o.name j)
    (hset : o.nameSet = false) : Rewritten e e.tabled o o.loadaddr := by
  have ha : LoadAddress e.toBuffer o.name o.loadaddr o.loadaddr := by
    rw [LoadAddress]
    split_ifs with hgiven
    · rfl
    · exact ⟨fun j hj => absurd hj (hno j), fun _ => not_not.mp hgiven⟩
  have hsym := h.linked.toHasSymtab
  refine ⟨⟨⟨h.valid, h.ok, h.pht, h.sht⟩, hsym, rfl⟩, ⟨h.valid, h.linkable.laidOut, h.linked, h.page,
    ⟨fun j hj => absurd hj (hno j), fun i j hi => absurd hi (hno i), fun j hj => absurd hj (hno j)⟩,
    loadAddress_small h.linkable ha, fun _ => rfl, fun _ => ⟨hset, rfl⟩⟩, rfl, rfl,
    h.linkable.phnum, h.address ha, fun _ => rfl⟩

section OneSymbol

variable (hobject : Object e.toBuffer e.table o.name k)
  (haccepted : Accepted e.toBuffer e.table k)

include hobject

omit h in
/-- The address is the one that is given, or the one in the record. -/
theorem loadAddress_filledOut (hb : Linkable e.toBuffer o) :
    LoadAddress e.toBuffer o.name o.loadaddr (e.filledOut o k).loadaddr := by
  have haddr : (e.filledOut o k).loadaddr
      = if o.loadaddr = 0 then num e.data (place e.toBuffer e.table k) 8 else o.loadaddr := rfl
  rw [LoadAddress, haddr]
  by_cases hgiven : o.loadaddr = 0
  · rw [if_neg (not_not.mpr hgiven), if_pos hgiven]
    refine ⟨fun j hj => ?_, fun hno => absurd hobject (hno k)⟩
    rw [hb.referenced.once j k hj hobject]
  · rw [if_pos hgiven, if_neg hgiven]

include haccepted

/-- The record of a linkable file is judged right. -/
theorem inside_accepted : Inside e.toBuffer e.table k :=
  (h.linkable.referenced.housed k hobject).inside haccepted.1

section Written

variable {x : Filled} (hapart : ∀ p, p < place e.toBuffer e.table k
  ∨ place e.toBuffer e.table k + sizeofSymtabref ≤ p → x.data p = e.data p)

include hapart

/-- A record changes nothing that the tool reads. -/
theorem inPlace_filled : InPlace e.toBuffer (e.tabled.withFilled x).toBuffer :=
  inPlace_record h.valid h.linkable.laidOut h.linked.toHasSymtab hobject.2.2
    (h.inside_accepted hobject haccepted) rfl hapart

/-- The symbols are those that were there. -/
theorem shuffled_filled : Shuffled e.toBuffer (e.tabled.withFilled x).toBuffer id := by
  have hsym := h.linked.toHasSymtab
  have hin := h.inside_accepted hobject haccepted
  refine (h.inPlace_filled hobject haccepted hapart).shuffled h.valid
    (reordered_id h.valid hsym fun p hp => hapart p ?_)
  -- the record is in a section of another type than the table's
  by_contra hmeet
  have hcovers := record_covered hobject.2.2 hin (p := p) (by omega) (by omega)
  have hsame := Region.contents.inj (h.linkable.laidOut _ _ p hp hcovers)
  have htype := hsym.type.symm.trans (hsame ▸ hin.1.2)
  exact absurd htype (by decide)

/-- The record holds the address now. -/
theorem recorded_filled (hrecord : num x.data (place e.toBuffer e.table k) sizeofSymtabref
      = (e.request o).record loadaddr e.table.nsymtab) :
    Recorded (e.tabled.withFilled x).toBuffer (e.request o) loadaddr := by
  have hsym := h.linked.toHasSymtab
  have hplace := h.inPlace_filled hobject haccepted hapart
  have hs := h.shuffled_filled hobject haccepted hapart
  have hr := hplace.refiled h.valid
  have hin := h.inside_accepted hobject haccepted
  have honly : ∀ j, Object (e.tabled.withFilled x).toBuffer (e.tabled.withFilled x).table o.name j →
      j = k := fun j hj =>
    h.linkable.referenced.once j k ((hr.object_iff h.valid hsym hs).mp hj).2 hobject
  refine ⟨fun j hj => ?_, fun i j hi hj => (honly i hi).trans (honly j hj).symm, fun j hj => ?_⟩
  · obtain rfl := honly j hj
    exact ⟨(hr.accepted_iff h.valid hsym hs hobject.1 hobject.2.2.2).mpr haccepted,
      (hr.inside_iff h.valid hsym hs hobject.1 hobject.2.2.2).mpr hin⟩
  · obtain rfl := honly j hj
    have hsame : place (e.tabled.withFilled x).toBuffer (e.tabled.withFilled x).table j
        = place e.toBuffer e.table j := by
      rw [place, place, hr.sectionOf_eq h.valid hsym hs hobject.1,
        hr.valueOf_eq h.valid hsym hs hobject.1,
        (hr.section_eq h.valid hsym hs hobject.1 hobject.2.2.2 hin.1.2).1, hplace.shoff, id_eq,
        hplace.offset hobject.2.2.2]
    rw [hsame, hr.nsymtab_eq h.valid hsym]
    exact hrecord

end Written

omit h hobject haccepted in
/-- A record that is not written was there already. -/
theorem filledOut_noted (hno : (e.tabled.withFilled (e.filledOut o k)).changed = false) :
    e.tabled.withFilled (e.filledOut o k) = e.tabled := by
  have hadd := withFilled_add e.tabled (e.unfilled o.loadaddr) (e.request o) e.table.nsymtab
    (place e.toBuffer e.table k)
  have hchanged : (e.changed || decide (num (e.unfilled o.loadaddr).data
      (place e.toBuffer e.table k) sizeofSymtabref ≠ (e.request o).record ((e.unfilled o.loadaddr).addrAt (place e.toBuffer e.table k))
        e.table.nsymtab)) = false := hno
  rw [Bool.or_eq_false_iff, decide_eq_false_iff_not, not_not] at hchanged
  rw [if_pos hchanged.2] at hadd
  exact hadd.symm

/-- **THE RECORD** is filled in. -/
theorem rewritten_one : Rewritten e (e.tabled.withFilled (e.filledOut o k)) o
    (e.filledOut o k).loadaddr := by
  have hsym := h.linked.toHasSymtab
  have haddr := loadAddress_filledOut hobject h.linkable
  have hsmall := loadAddress_small h.linkable haddr
  have hapart : ∀ p, _ → (e.filledOut o k).data p = e.data p := fun p => filledOut_apart
  have hrecord := filledOut_record hsmall
  have hnoted := filledOut_noted (e := e) (o := o) (k := k)
  generalize e.filledOut o k = x at *
  have hplace := h.inPlace_filled hobject haccepted hapart
  have hs := h.shuffled_filled hobject haccepted hapart
  have hr := hplace.refiled h.valid
  have hin := h.inside_accepted hobject haccepted
  have hvalid := hr.valid h.valid hsym
  have hrange := hplace.range_eq h.valid h.linked
  have hphnum : (e.tabled.withFilled x).phnum = e.phnum :=
    phnum_apart h.linkable.laidOut (r := .contents (sectionOf e.toBuffer e.table k))
      Region.noConfusion fun p hp => hapart p (by
        by_contra hmeet
        exact hp (record_covered hobject.2.2 hin (by omega) (by omega)))
  refine ⟨⟨⟨hvalid, h.ok, h.pht.trans hplace.phoff.symm, h.sht.trans hplace.shoff.symm⟩,
    hr.hasSymtab h.valid hsym, congrArg some (hplace.table_eq h.valid hsym).symm⟩,
    ⟨hvalid, hplace.laidOut h.linkable.laidOut, hr.linked h.valid hsym h.linked, ?_, ?_, hsmall,
      fun hgiven => ?_, fun hno => ?_⟩, hr.symtabNdx_eq h.valid hsym, hrange, ?_,
    h.address haddr, hnoted⟩
  · rw [hplace.table_eq h.valid hsym]
    exact h.page
  · rw [Buffer.request, hrange]
    exact h.recorded_filled hobject haccepted hapart hrecord
  · rw [LoadAddress, if_pos hgiven] at haddr
    exact haddr
  · exact absurd ((hr.object_iff h.valid hsym hs).mpr ⟨hobject.1, hobject⟩) (hno k)
  · rw [hphnum]
    exact h.linkable.phnum

end OneSymbol

/-- **`rewrite_symtabref`**, where the program goes on. -/
theorem rewrites (hr : Returns (e.rewriteSymtabref (e.request o) o.loadaddr)
    (.ok (m, loadaddr, e'))) (hfound : ¬ (m = 0 ∧ o.nameSet)) : Rewritten e e' o loadaddr := by
  have hsym := h.linked.toHasSymtab
  by_cases hobjects : ∃ k, Object e.toBuffer e.table o.name k
  · obtain ⟨k, hobject⟩ := hobjects
    have honce : ∀ j, Object e.toBuffer e.table o.name j → j = k :=
      fun j hj => h.linkable.referenced.once j k hj hobject
    by_cases haccepted : Accepted e.toBuffer e.table k
    · have hone := h.rewrite_one (e.request o) o.loadaddr h.cache hsym hobject
        honce h.linkable.laidOut haccepted (h.inside_accepted hobject haccepted)
      obtain ⟨-, hrest⟩ := Prod.mk.inj (Except.ok.inj (hr.unique hone))
      obtain ⟨rfl, rfl⟩ := Prod.mk.inj hrest
      exact h.rewritten_one hobject haccepted
    · obtain ⟨halt, hrefused⟩ := h.rewrite_refused (e.request o) o.loadaddr h.cache hsym hobject honce haccepted
      cases hr.unique hrefused
  · have hno : ∀ j, ¬ Object e.toBuffer e.table o.name j := fun j hj => hobjects ⟨j, hj⟩
    have hnone := h.rewrite_none (e.request o) o.loadaddr h.cache hsym hno
    obtain ⟨rfl, hrest⟩ := Prod.mk.inj (Except.ok.inj (hr.unique hnone))
    obtain ⟨rfl, rfl⟩ := Prod.mk.inj hrest
    exact h.rewritten_none hno (eq_false_of_ne_true fun hset => hfound ⟨rfl, hset⟩)

end Aligned

/-! ## What comes behind the record -/

/-- What holds between the steps of `finish`, which starts with `e₀`. -/
structure Finishing (o : Options) (loadaddr : Nat) (e₀ e : ElfInfo) : Prop where
  cached : Cached e
  settled : Settled e.toBuffer o loadaddr
  ndx : e.symtabNdx = e₀.symtabNdx
  range : e.toBuffer.range = e₀.toBuffer.range
  noted : e.changed = false → e = e₀

namespace Finishing

variable {e₀ : ElfInfo}

/-- Before the file is finished. -/
theorem start (h : Cached e) (hs : Settled e.toBuffer o loadaddr) : Finishing o loadaddr e e :=
  ⟨h, hs, rfl, rfl, fun _ => rfl⟩

/-- **ONE STEP** behind `rewrite_symtabref`. -/
theorem step (h : Finishing o loadaddr e₀ e) (hed : Edited e e') : Finishing o loadaddr e₀ e' where
  cached := hed.cached h.cached
  settled := h.settled.inPlace hed.inPlace hed.records
  ndx := ((hed.inPlace.refiled h.cached.valid).symtabNdx_eq h.cached.valid h.cached.symtab).trans
    h.ndx
  range := (hed.inPlace.range_eq h.cached.valid h.settled.linked).trans h.range
  noted := by
    intro hno
    obtain rfl := hed.noted hno
    exact h.noted hno

variable (h : Finishing o loadaddr e₀ e)

include h

/-- Both sections of the table are marked. -/
theorem marks {r : Range} (hok : e.markSymtab e₀.symtabNdx r loadaddr = .ok e') :
    Finishing o loadaddr e₀ e' ∧ e'.phnum = e.phnum ∧ (e.InOrder → e'.InOrder)
      ∧ Marked e'.toBuffer e'.symtabNdx ∧ Marked e'.toBuffer (e'.symtabNdx + 1) := by
  obtain ⟨e₁, hmark₁, hmark₂⟩ := ok_of_bind hok
  rw [← h.ndx] at hmark₁
  obtain ⟨e₁', hsame₁, hed₁, hmarked₁, -, hordered₁, hphnum₁⟩ := h.cached.marks loadaddr
    h.settled.laidOut (Buffer.symtabNdx_lt h.cached.valid) (by rw [h.cached.symtab.type]; decide)
  obtain rfl := Except.ok.inj (hmark₁.symm.trans hsame₁)
  have h₁ := h.step hed₁
  obtain ⟨hlt, htype⟩ := strtab_section h₁.cached.valid h₁.settled.linked
  rw [← h₁.ndx] at hmark₂
  obtain ⟨e₂, hsame₂, hed₂, hmarked₂, hkept₂, hordered₂, hphnum₂⟩ := h₁.cached.marks _
    h₁.settled.laidOut hlt (by rw [htype]; decide)
  obtain rfl := Except.ok.inj (hmark₂.symm.trans hsame₂)
  have h₂ := h₁.step hed₂
  have hndx : e'.symtabNdx = e₁.symtabNdx := h₂.ndx.trans h₁.ndx.symm
  refine ⟨h₂, hphnum₂.trans hphnum₁, hordered₂ ∘ hordered₁, ?_, ?_⟩
  · rw [hndx]
    refine hkept₂ _ (Buffer.symtabNdx_lt h₁.cached.valid) ?_
    rw [h₁.ndx, ← h.ndx]
    exact hmarked₁
  · rw [hndx]
    exact hmarked₂

/-- **`finish`** leaves a file that is finished. -/
theorem finishes (hphnum : e.phnum < 65535)
    (haddr : loadaddr + e₀.toBuffer.range.size < 2 ^ 64)
    (hok : e.finish e₀.symtabNdx e₀.toBuffer.range loadaddr = .ok e') :
    Finishing o loadaddr e₀ e' ∧ Finished e'.toBuffer loadaddr := by
  obtain ⟨e₁, hsort, hed₁, hordered₁, hphnum₁⟩ := h.cached.sorts h.settled.laidOut
  have h₁ := h.step hed₁
  rw [ElfInfo.finish, hsort] at hok
  by_cases hzero : loadaddr = 0
  · have hok : (if loadaddr ≠ 0 then _ else Except.ok e₁) = Except.ok e' := hok
    rw [if_neg (not_not.mpr hzero)] at hok
    obtain rfl := Except.ok.inj hok
    exact ⟨h₁, hordered₁, absurd hzero, absurd hzero⟩
  have hok : (if loadaddr ≠ 0 then
      e₁.markSymtab e₀.symtabNdx e₀.toBuffer.range loadaddr >>= _ else Except.ok e₁)
    = Except.ok e' := hok
  rw [if_pos hzero] at hok
  obtain ⟨e₂, hmark, hadd⟩ := ok_of_bind hok
  obtain ⟨h₂, hphnum₂, hordered₂, hmarked, hmarked'⟩ := h₁.marks hmark
  obtain ⟨hed₃, hprogram, hkept, hordered₃⟩ := h₂.cached.addProgram_ok h₂.settled.laidOut
    (by rw [hphnum₂, hphnum₁]; exact hphnum) haddr (num_lt _ _ 8) hadd
  have h₃ := h₂.step hed₃
  have hndx : e'.symtabNdx = e₂.symtabNdx := h₃.ndx.trans h₂.ndx.symm
  refine ⟨h₃, hordered₃ (hordered₂ hordered₁), fun _ => ?_, fun _ => ?_⟩
  · rw [hndx]
    exact ⟨hkept _ (Buffer.symtabNdx_lt h₂.cached.valid) hmarked,
      hkept _ (strtab_section h₂.cached.valid h₂.settled.linked).1 hmarked'⟩
  · rw [h₃.range]
    exact hprogram

end Finishing

/-! ## The run -/

/-- A file that is accepted is valid. -/
theorem accept_ok (h : b.load.accept = .ok e) : Valid b ∧ e = b.accepted := by
  obtain ⟨v, hvalidate, hv⟩ := ok_of_bind h
  cases v with
  | rejected c => cases hv
  | accepted e' =>
      obtain rfl := Except.ok.inj hv
      exact Buffer.valid_of_accepted hvalidate

/-- The steps of a run that succeeds: `e₁` is aligned, `e₂` has the address in its record,
    and `e` is finished. -/
structure EditSteps (b : Buffer) (o : Options) (n loadaddr : Nat) (e₁ e₂ e : ElfInfo) : Prop where
  valid : Valid b
  linked : b.Linked
  aligns : b.accepted.alignSymtab b.symtabNdx n = some (.ok e₁)
  aligned : Aligned b o e₁
  rewrites : ∃ m, Returns (e₁.rewriteSymtabref (e₁.request o) o.loadaddr) (.ok (m, loadaddr, e₂))
  rewritten : Rewritten e₁ e₂ o loadaddr
  finishes : e₂.finish e₂.symtabNdx e₂.toBuffer.range loadaddr = .ok e

/-- A run that succeeds has gone through all its steps. -/
theorem edit_steps (hb : Linkable b o) (h : b.load.edit o n = some (.ok e)) :
    ∃ loadaddr e₁ e₂, EditSteps b o n loadaddr e₁ e₂ e := by
  obtain ⟨e₀, haccept, h⟩ := andThen_inv h
  obtain ⟨i, hsection, h⟩ := andThen_inv h
  obtain ⟨e₁, halign, h⟩ := andThen_inv h
  obtain ⟨r, hrange, h⟩ := andThen_inv h
  obtain ⟨⟨m, loadaddr, e₂⟩, hrewrite, h⟩ := andThen_inv h
  have haccept := orHalt_ok (Option.some.inj haccept)
  have hsection := orHalt_ok (Option.some.inj hsection)
  have hrange := orHalt_ok (Option.some.inj hrange)
  obtain ⟨hvalid, rfl⟩ := accept_ok haccept
  obtain ⟨hlinked, rfl⟩ := ((opened_accepted hvalid).symtabSection_iff rfl).mp hsection
  have hlinked : b.Linked := hlinked
  obtain ⟨r', halign, hr'⟩ := Option.map_eq_some_iff.mp halign
  obtain rfl := orHalt_ok (x := r') hr'
  have h₁ : Aligned b o e₁ := alignSymtab_ok hvalid hlinked hb halign
  have hrange : e₁.range b.symtabNdx = .ok r := hrange
  rw [← h₁.ndx, h₁.range_eq h₁.linked] at hrange
  obtain rfl := Except.ok.inj hrange
  have h : (if m = 0 ∧ o.nameSet = true then _ else
    some (orHalt (e₂.finish b.symtabNdx e₁.toBuffer.range loadaddr))) = some (.ok e) := h
  split_ifs at h with hfound
  · cases h
  have hrewrites := rewriteSymtabref_returns hrewrite
  have h₂ := h₁.rewrites hrewrites hfound
  have hfinish := orHalt_ok (Option.some.inj h)
  rw [← h₁.ndx, ← h₂.ndx, ← h₂.range] at hfinish
  exact ⟨loadaddr, e₁, e₂, hvalid, hlinked, halign, h₁, ⟨m, hrewrites⟩, h₂, hfinish⟩

/-- **A RUN** that succeeds leaves a finished file. -/
theorem EditSteps.ok (h : EditSteps b o n loadaddr e₁ e₂ e) :
    Settled e.toBuffer o loadaddr ∧ Finished e.toBuffer loadaddr
      ∧ (e.changed = false → e = b.accepted.tabled) := by
  -- only the alignment moves anything; behind it each step keeps what the ones before it left
  have haddr := h.rewritten.address
  rw [← h.rewritten.range] at haddr
  obtain ⟨hend, hfinished⟩ := (Finishing.start h.rewritten.cached h.rewritten.settled).finishes
    h.rewritten.phnum haddr h.finishes
  refine ⟨hend.settled, hfinished, fun hno => ?_⟩
  obtain rfl := hend.noted hno
  have hrewritten := h.rewritten.noted hno
  rw [hrewritten] at hno ⊢
  rw [h.aligned.noted hno]

/-- What is written is the file as it is: one that is left alone is the one that would be
    written. -/
theorem EditSteps.written (h : EditSteps b o n loadaddr e₁ e₂ e) :
    b.written o e = e.contents := by
  rw [Buffer.written]
  split_ifs with hno
  · rw [h.ok.2.2 hno.1]
    rfl
  · rfl

/-! ## The next run -/

section SameContents

variable (h : b'.contents = b.contents)

include h

/-- The file that is read again has the size of the one that was written. -/
theorem size_of_contents : b'.size = b.size := by
  have hlen := congrArg List.length h
  rwa [Buffer.contents, Buffer.contents, List.length_map, List.length_map, List.length_range,
    List.length_range] at hlen

/-- It has the bytes of that file. -/
theorem data_of_contents (hp : p < b.size) : b'.data p = b.data p := by
  have hget := congrArg (fun l => l[p]?) h
  simp only [Buffer.contents, List.getElem?_map, size_of_contents h,
    List.getElem?_range hp, Option.map_some, Option.some.injEq] at hget
  exact hget

/-- So it has the numbers of that file. -/
theorem num_of_contents {a w : Nat} (hin : a + w ≤ b.size) : num b'.data a w = num b.data a w :=
  num_congr fun k hk => data_of_contents h (by omega)

end SameContents

/-- The parts of a valid file are in it. -/
theorem Covers.lt (hv : Valid b) {r : Region} (hp : Covers b r p) : p < b.size := by
  have hok := hv.header
  cases r with
  | header => exact Nat.lt_of_lt_of_le hp hok.header
  | programs => exact Nat.lt_of_lt_of_le hp.2 hok.programs_inside
  | sections => exact Nat.lt_of_lt_of_le hp.2 hok.sections_inside
  | contents i =>
      obtain ⟨hi, hbacked, -, hlast⟩ := hp
      exact Nat.lt_of_lt_of_le hlast (hv.contents_inside hi hbacked).2

/-- Bytes that count are in the file. -/
theorem Solid.lt (hv : Valid b) (hp : Solid b p) : p < b.size := by
  cases hp with
  | header hlt _ => exact Covers.lt hv (r := .header) hlt
  | entry hi hk =>
      refine Covers.lt hv (r := .sections) (LaidOut.covers_sect hi ?_)
      simp only [sizeofSection]
      omega
  | address hi htype hk hk' =>
      refine Covers.lt hv (r := .sections) (LaidOut.covers_sect hi ?_)
      simp only [sizeofSection]
      omega
  | contents hcovers _ _ => exact hcovers.lt hv

/-- A file with the same contents. -/
theorem inPlace_of_contents (hv : Valid b) (hlaid : LaidOut b) (hsym : b.HasSymtab)
    (h : b'.contents = b.contents) : InPlace b b' :=
  InPlace.of_solid hv hlaid (size_of_contents h) (fun _ hp => data_of_contents h (hp.lt hv))
    (num_of_contents h (hv.header.inside ePhnum (by decide)))
    ⟨id, reordered_id hv hsym fun _ hp => data_of_contents h (hp.lt hv)⟩

/-- A finished file is finished in every buffer. -/
theorem Finished.of_contents (hf : Finished b loadaddr) (hs : Settled b o loadaddr)
    (h : b'.contents = b.contents) : Finished b' loadaddr := by
  have hv := hs.valid
  have hsym := hs.linked.toHasSymtab
  have hplace := inPlace_of_contents hv hs.laidOut hsym h
  have hndx := (hplace.refiled hv).symtabNdx_eq hv hsym
  have hphnum : b'.phnum = b.phnum := num_of_contents h (hv.header.inside ePhnum (by decide))
  have hmarked : ∀ i, i < b.shnum → Marked b i → Marked b' i := by
    intro i hi hmarked
    have hflags : b'.val (shFlags b.shoff i) = b.val (shFlags b.shoff i) :=
      num_of_contents h (flags_inside hv hi).1
    rwa [Marked, hplace.shoff, hflags]
  have hpassed : ∀ i, i < b.phnum → (Passed b' loadaddr i ↔ Passed b loadaddr i) := by
    intro i hi
    obtain ⟨hva, hfilesz, -⟩ := program_fields_inside hv.header hi
    have hva : b'.val (pVa b.phoff i) = b.val (pVa b.phoff i) := num_of_contents h hva
    have hfilesz : b'.val (pFilesz b.phoff i) = b.val (pFilesz b.phoff i) :=
      num_of_contents h hfilesz
    rw [Passed, Passed, hplace.phoff, hva, hfilesz]
  refine ⟨inOrder_same hplace hv hsym (fun p hp => data_of_contents h (hp.lt hv)) hf.inOrder,
    fun hzero => ?_, fun hzero => ?_⟩
  · rw [hndx]
    exact ⟨hmarked _ (Buffer.symtabNdx_lt hv) (hf.marked hzero).1,
      hmarked _ (strtab_section hv hs.linked).1 (hf.marked hzero).2⟩
  · obtain ⟨i, hstops, hlt, hholds⟩ := hf.program hzero
    obtain ⟨hva, hfilesz, hoffset⟩ := program_fields_inside hv.header hlt
    have hva : b'.val (pVa b.phoff i) = b.val (pVa b.phoff i) := num_of_contents h hva
    have hfilesz : b'.val (pFilesz b.phoff i) = b.val (pFilesz b.phoff i) :=
      num_of_contents h hfilesz
    have hoffset : b'.val (pOffset b.phoff i) = b.val (pOffset b.phoff i) :=
      num_of_contents h hoffset
    refine ⟨i, ⟨hphnum ▸ hstops.1, fun k hk => ?_, fun _ => ?_⟩, hphnum ▸ hlt, ?_⟩
    · exact (hpassed k (Nat.lt_trans hk hlt)).mpr (hstops.2.1 k hk)
    · exact mt (hpassed i hlt).mp (hstops.2.2 hlt)
    · rw [hplace.phoff, hva, hoffset, hfilesz, hplace.range_eq hv hs.linked]
      exact hholds

/-- **IDEMPOTENCE**: on a file as a linker lays it out, the program leaves its own
    output as it is. -/
theorem mkchickadeesymtab_idempotent {B : List UInt8} (hb : Linkable b o)
    (h : b.mkchickadeesymtab o n = some (.ok B)) (hagain : b'.contents = B) :
    Returns (b'.mkchickadeesymtab o) (.ok B) := by
  obtain ⟨r, hedit, hr⟩ := Option.map_eq_some_iff.mp h
  cases r with
  | error s => cases hr
  | ok e =>
      obtain ⟨loadaddr, e₁, e₂, hsteps⟩ := edit_steps hb hedit
      obtain ⟨hs, hf, -⟩ := hsteps.ok
      have hcontents : b'.contents = e.toBuffer.contents := by
        rw [hagain, ← hsteps.written]
        exact (Except.ok.inj hr).symm
      have hplace := inPlace_of_contents hs.valid hs.laidOut hs.linked.toHasSymtab hcontents
      have hs' := hs.inPlace hplace fun i p hp _ => data_of_contents hcontents (hp.lt hs.valid)
      rw [← hagain]
      exact hs'.returns (hf.of_contents hs hcontents)

/-! ## A run -/

/-- A file with a record, whose symbol table is on no page boundary. -/
def linked : Buffer :=
  sample 712 (by decide) ([(eMagic, elfMagic), (ePhoff, 64), (eShoff, 392),
    (ePhentsize, sizeofProgram), (ePhnum, 1), (eShentsize, sizeofSection), (eShnum, 5),
    (eShstrndx, 3), (pType 64 0, ptypeLoad), (pOffset 64 0, 240), (pVa 64 0, 0x2000),
    (pFilesz 64 0, 64), (shName 392 1, 1), (shType 392 1, shtSymtab), (shOffset 392 1, 304),
    (shSize 392 1, 72), (shLink 392 1, 2), (shName 392 2, 9), (shType 392 2, shtStrtab),
    (shOffset 392 2, 376), (shSize 392 2, 10), (shName 392 3, 17), (shType 392 3, shtStrtab),
    (shOffset 392 3, 200), (shSize 392 3, 33), (shName 392 4, 27), (shType 392 4, shtProgbits),
    (shAddr 392 4, 0x2000), (shOffset 392 4, 240), (shSize 392 4, 64), (stName 304 1, 8),
    (stInfo 304 1, sttObject), (stShndx 304 1, 4), (stValue 304 1, 0x2000), (stSize 304 1, 4),
    (stName 304 2, 1), (stInfo 304 2, sttObject), (stShndx 304 2, 4), (stValue 304 2, 0x2010),
    (stSize 304 2, sizeofSymtabref)]
    ++ text 200 [0, 46, 115, 121, 109, 116, 97, 98, 0, 46, 115, 116, 114, 116, 97, 98, 0,
      46, 115, 104, 115, 116, 114, 116, 97, 98, 0, 46, 100, 97, 116, 97, 0]
    ++ text 376 [0, 115, 121, 109, 116, 97, 98, 0, 98, 0])
/-- Its record is to hold the address `0x40000`. -/
def asked : Options := ⟨0x40000, ⟨[115, 121, 109, 116, 97, 98], by simp⟩, true, true⟩


/-- Which part of the file a byte is in. -/
def linkedPart (p : Nat) : Region :=
  if p < 64 then .header else if p < 200 then .programs else if p < 240 then .contents 3
  else if p < 304 then .contents 4 else if p < 376 then .contents 1
  else if p < 392 then .contents 2 else .sections

theorem linked_laidOut : LaidOut linked := by
  have htables : linked.phoff = 64 ∧ linked.phnum = 1 ∧ linked.shoff = 392 ∧ linked.shnum = 5 := by
    decide +kernel
  have hcontents : ∀ i, i < 5 → FileBacked linked i →
      (i = 1 ∧ linked.val (shOffset 392 i) = 304 ∧ linked.val (shSize 392 i) = 72)
      ∨ (i = 2 ∧ linked.val (shOffset 392 i) = 376 ∧ linked.val (shSize 392 i) = 10)
      ∨ (i = 3 ∧ linked.val (shOffset 392 i) = 200 ∧ linked.val (shSize 392 i) = 33)
      ∨ (i = 4 ∧ linked.val (shOffset 392 i) = 240 ∧ linked.val (shSize 392 i) = 64) := by
    decide +kernel
  obtain ⟨hphoff, hphnum, hshoff, hshnum⟩ := htables
  have hpart : ∀ r p, Covers linked r p → r = linkedPart p := by
    intro r p hp
    cases r with
    | header =>
        have hp : p < 64 := hp
        exact (if_pos hp).symm
    | programs =>
        rw [Covers, hphoff, hphnum] at hp
        simp only [program, sizeofProgram] at hp
        rw [linkedPart, if_neg (by omega), if_pos (by omega)]
    | sections =>
        rw [Covers, hshoff, hshnum] at hp
        rw [linkedPart, if_neg (by omega), if_neg (by omega), if_neg (by omega), if_neg (by omega),
          if_neg (by omega), if_neg (by omega)]
    | contents i =>
        obtain ⟨hi, hbacked, hfirst, hlast⟩ := hp
        rw [hshoff] at hfirst hlast
        rw [hshnum] at hi
        rcases hcontents i hi hbacked with ⟨rfl, hoff, hsize⟩ | ⟨rfl, hoff, hsize⟩
          | ⟨rfl, hoff, hsize⟩ | ⟨rfl, hoff, hsize⟩
        · rw [linkedPart, if_neg (by omega), if_neg (by omega), if_neg (by omega), if_neg (by omega),
            if_pos (by omega)]
        · rw [linkedPart, if_neg (by omega), if_neg (by omega), if_neg (by omega), if_neg (by omega),
            if_neg (by omega), if_pos (by omega)]
        · rw [linkedPart, if_neg (by omega), if_neg (by omega), if_pos (by omega)]
        · rw [linkedPart, if_neg (by omega), if_neg (by omega), if_neg (by omega), if_pos (by omega)]
  exact fun r r' p hp hp' => (hpart r p hp).trans (hpart r' p hp').symm

/-- The example is linkable. -/
theorem linked_linkable : Linkable linked asked := by
  have hobjects : ∀ j, j < 3 → Object linked linked.table asked.name j →
      j = 2 ∧ Housed linked linked.table j := by decide +kernel
  have hcount : linked.table.nsymtab = 3 := by decide +kernel
  have hobject : ∀ j, Object linked linked.table asked.name j →
      j = 2 ∧ Housed linked linked.table j := fun j hj => hobjects j (hcount ▸ hj.1) hj
  refine ⟨linked_laidOut, by decide +kernel, by decide +kernel, by decide +kernel,
    ⟨fun i j hi hj => (hobject i hi).1.trans (hobject j hj).1.symm, fun j hj => (hobject j hj).2⟩,
    fun a ha => ?_⟩
  have hsize : linked.tableSize = 82 := by decide +kernel
  have ha : a = 0x40000 := ha
  rw [hsize, ha]
  decide

/-- The file when the program has succeeded on it. -/
def Buffer.edited (b : Buffer) (o : Options) (budget : Nat) : Buffer :=
  match b.load.edit o budget with
  | some (.ok e) => e.toBuffer
  | _ => b

/-- What the tool leaves, as a function. -/
theorem edited_eq {b : Buffer} {o : Options} {n : Nat} {e : ElfInfo}
    (h : b.load.edit o n = some (.ok e)) : b.edited o n = e.toBuffer := by
  rw [Buffer.edited, h]

/-- A run that succeeds on it. -/
theorem linked_edit : ∃ e, linked.load.edit asked 10 = some (.ok e)
    ∧ e.size = 4504 ∧ e.changed = true := by
  have hedit : (linked.load.edit asked 10).map
      (fun r => r.toOption.map fun e => (e.size, e.changed)) = some (some (4504, true)) := by
    decide +kernel
  obtain ⟨r, hr, hresult⟩ := Option.map_eq_some_iff.mp hedit
  cases r with
  | error s => cases hresult
  | ok e =>
      obtain ⟨hsize, hchanged⟩ := Prod.mk.inj (Option.some.inj hresult)
      exact ⟨e, hr, hsize, hchanged⟩

/-- The tool succeeds on it. -/
theorem linked_output : linked.mkchickadeesymtab asked 10
    = some (.ok (linked.edited asked 10).contents) := by
  obtain ⟨e, hrun, -, hchanged⟩ := linked_edit
  have hwritten : linked.written asked e = (linked.edited asked 10).contents := by
    rw [edited_eq hrun, Buffer.written,
      if_neg fun hno => Bool.noConfusion (hno.1.symm.trans hchanged)]
  rw [Buffer.mkchickadeesymtab, hrun, ← hwritten]
  rfl

theorem mkchickadeesymtab_idempotent_linked : (linked.edited asked 10).size = 4504
    ∧ Returns ((linked.edited asked 10).mkchickadeesymtab asked) (.ok (linked.edited asked 10).contents) := by
  obtain ⟨e, hrun, hsize, -⟩ := linked_edit
  exact ⟨(congrArg Buffer.size (edited_eq hrun)).trans hsize,
    mkchickadeesymtab_idempotent linked_linkable linked_output rfl⟩

end ElfFile
