import Cs61.ElfAligned
import Cs61.ElfPrograms

/-! # A run that finds nothing to do

    A file is settled when its symbol table is on a page boundary and its record
    holds the address, and finished when the symbols are in order, marked, and have
    their program header.  A run on such a file does nothing. -/

namespace ElfFile

open ByteFiles Checks LoopRules

variable {b b' : Buffer} {e : ElfInfo} {o : Options} {i j k n p loadaddr : Nat}

/-- What `rewrite_symtabref` is asked for. -/
def Buffer.request (b : Buffer) (o : Options) : Request :=
  ⟨o.name, b.range.strtabOff, b.range.size⟩

/-- The symbol table is in its place, and the record holds its address. -/
structure Settled (b : Buffer) (o : Options) (loadaddr : Nat) : Prop where
  valid : Valid b
  laidOut : LaidOut b
  linked : b.Linked
  page : b.table.symtab % pageSize = 0
  recorded : Recorded b (b.request o) loadaddr
  small : loadaddr < 2 ^ 64
  given : o.loadaddr ≠ 0 → loadaddr = o.loadaddr
  absent : (∀ j, ¬ Object b b.table o.name j) → o.nameSet = false ∧ loadaddr = o.loadaddr

/-- The symbols are as `finish` leaves them. -/
structure Finished (b : Buffer) (loadaddr : Nat) : Prop where
  inOrder : b.InOrder
  marked : loadaddr ≠ 0 → Marked b b.symtabNdx ∧ Marked b (b.symtabNdx + 1)
  program : loadaddr ≠ 0 → HasProgram b loadaddr b.range

/-- Steps in place that touch no record. -/
theorem Settled.inPlace (hs : Settled b o loadaddr) (h : InPlace b b')
    (hrecords : ∀ i p, Covers b (.contents i) p → b.val (shType b.shoff i) = shtProgbits →
      b'.data p = b.data p) : Settled b' o loadaddr := by
  have hv := hs.valid
  have hsym := hs.linked.toHasSymtab
  have hr := h.refiled hv
  obtain ⟨σ, hσ⟩ := h.symbols
  have hshuffled := h.shuffled hv hσ
  refine ⟨hr.valid hv hsym, h.laidOut hs.laidOut, hr.linked hv hsym hs.linked, ?_, ?_, hs.small,
    hs.given, fun hno => hs.absent fun j hobject => ?_⟩
  · rw [h.table_eq hv hsym]
    exact hs.page
  · rw [Buffer.request, h.range_eq hv hs.linked]
    exact hs.recorded.inPlace h hv hsym hrecords
  · obtain ⟨i, hi, rfl⟩ := hσ.known.surjOn hobject.1
    exact hno i ((hr.object_iff hv hsym hshuffled).mpr ⟨hi, hobject⟩)

/-! ## The steps -/

section Steps

variable (hs : Settled b o loadaddr)

include hs

/-- The record is not written again. -/
theorem Settled.rewrites : ∃ n, ¬ (n = 0 ∧ o.nameSet) ∧
    Returns (b.accepted.rewriteSymtabref (b.request o) o.loadaddr)
      (.ok (n, loadaddr, b.accepted.tabled)) := by
  have hopened := opened_accepted hs.valid
  have hsym := hs.linked.toHasSymtab
  by_cases hobjects : ∃ k, Object b b.table o.name k
  · obtain ⟨k, hobject⟩ := hobjects
    obtain ⟨haccepted, hin⟩ := hs.recorded.accepted k hobject
    have hrecord := hs.recorded.record k hobject
    -- without an address on the command line it is read from the record
    have haddr : (b.accepted.unfilled o.loadaddr).addrAt (place b b.table k) = loadaddr := by
      show (if o.loadaddr = 0 then num b.data (place b b.table k) 8 else o.loadaddr) = loadaddr
      split_ifs with hgiven
      · exact first_of_record hs.small hrecord
      · exact (hs.given hgiven).symm
    have hfilled : (b.accepted.unfilled o.loadaddr).add (b.request o) b.table.nsymtab
        (place b b.table k) = ⟨b.data, false, loadaddr, 1⟩ := by
      rw [Filled.add, haddr, ← hrecord]
      let old := num b.data (place b b.table k) sizeofSymtabref
      show Filled.mk (put b.data (place b b.table k) sizeofSymtabref old)
        (false || decide (old ≠ old)) loadaddr 1 = _
      rw [put_num, decide_eq_false (not_not.mpr rfl)]
      rfl
    refine ⟨1, fun hnone => Nat.one_ne_zero hnone.1, ?_⟩
    have hone := hopened.rewrite_one (b.request o) o.loadaddr rfl hsym hobject
      (fun j hj => hs.recorded.once j k hj hobject) hs.laidOut haccepted hin
    have hfilled' : (b.accepted.unfilled o.loadaddr).add (b.request o) b.accepted.table.nsymtab
        (place b.accepted.toBuffer b.accepted.table k) = ⟨b.data, false, loadaddr, 1⟩ := hfilled
    rw [hfilled'] at hone
    exact hone
  · have hno : ∀ j, ¬ Object b b.table o.name j := fun j hj => hobjects ⟨j, hj⟩
    obtain ⟨hset, rfl⟩ := hs.absent hno
    refine ⟨0, fun hnone => Bool.false_ne_true (hset.symm.trans hnone.2), ?_⟩
    exact hopened.rewrite_none (b.request o) o.loadaddr rfl hsym hno

theorem Settled.cached : Cached b.accepted.tabled where
  toOpened := ⟨hs.valid, rfl, rfl, rfl⟩
  symtab := hs.linked.toHasSymtab
  cache := rfl

/-- Nor is anything else. -/
theorem Settled.finishes (hf : Finished b loadaddr) :
    b.accepted.tabled.finish b.symtabNdx b.range loadaddr = .ok b.accepted.tabled := by
  have hc := hs.cached
  have hsorted : b.accepted.tabled.sortSymtab = .ok b.accepted.tabled :=
    hc.sortSymtab_inOrder hf.inOrder
  by_cases hzero : loadaddr = 0
  · rw [ElfInfo.finish, hsorted]
    exact if_neg (not_not.mpr hzero)
  obtain ⟨hsymtab, hstrtab⟩ := hf.marked hzero
  have hmark : ∀ a, b.accepted.tabled.markSection b.symtabNdx a = .ok b.accepted.tabled :=
    fun a => hc.toOpened.markSection_marked (Buffer.symtabNdx_lt hs.valid) hsymtab
  have hmark' : ∀ a, b.accepted.tabled.markSection (b.symtabNdx + 1) a = .ok b.accepted.tabled :=
    fun a => hc.toOpened.markSection_marked (strtab_section hs.valid hs.linked).1 hstrtab
  have hmarked : b.accepted.tabled.markSymtab b.symtabNdx b.range loadaddr
      = .ok b.accepted.tabled := by
    rw [ElfInfo.markSymtab, hmark]
    exact hmark' _
  rw [ElfInfo.finish, hsorted]
  show (if loadaddr ≠ 0 then b.accepted.tabled.markSymtab b.symtabNdx b.range loadaddr >>= _
    else _) = _
  rw [if_pos hzero, hmarked]
  exact hc.toOpened.addProgram_found (hf.program hzero)

end Steps

/-! ## The run -/

/-- **A FINISHED FILE** is left as it is. -/
theorem Settled.returns (hs : Settled b o loadaddr) (hf : Finished b loadaddr) :
    Returns (b.mkchickadeesymtab o) (.ok b.contents) := by
  have hopened := opened_accepted hs.valid
  have haccept : b.load.accept = .ok b.accepted := by
    rw [ElfInfo.accept, validate_of_valid hs.valid]
    rfl
  have hsection : b.accepted.symtabSection = .ok b.symtabNdx :=
    (hopened.symtabSection_iff rfl).mpr ⟨hs.linked, rfl⟩
  have halign : ∀ n, b.accepted.alignSymtab b.symtabNdx n = some (.ok b.accepted) :=
    fun n => hopened.alignSymtab_page hs.page
  have hrange : b.accepted.range b.symtabNdx = .ok b.range := hopened.range_eq hs.linked
  obtain ⟨m, hfound, hrewrite⟩ := hs.rewrites
  have hedit : Returns (b.load.edit o) (.ok b.accepted.tabled) := by
    refine andThen_returns (a := b.accepted) ?_ (andThen_returns (a := b.symtabNdx) ?_
      (andThen_returns (a := b.accepted) ?_ (andThen_returns (a := b.range) ?_
        (andThen_returns hrewrite ?_))))
    · rw [haccept]
      exact Returns.pure _
    · rw [hsection]
      exact Returns.pure _
    · refine (Returns.pure _).congr fun n => ?_
      rw [halign]
      rfl
    · rw [hrange]
      exact Returns.pure _
    · show Returns (fun _ => if m = 0 ∧ o.nameSet = true then _ else
        some (orHalt (b.accepted.tabled.finish b.symtabNdx b.range loadaddr))) _
      rw [if_neg hfound, hs.finishes hf]
      exact Returns.pure _
  have hwritten : b.written o b.accepted.tabled = b.contents := by
    rw [Buffer.written]
    split_ifs <;> rfl
  have hrun := hedit.map fun r => r.map (b.written o)
  rw [Except.map, hwritten] at hrun
  exact hrun

end ElfFile
