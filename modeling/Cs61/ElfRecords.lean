import Cs61.ElfInPlace
import Cs61.SymtabRuns

/-! # The record of a file that is laid out

    With at most one symbol that has the name, `rewrite_symtabref` leaves the file
    alone, fills in the record of that symbol, or ends the program because of it.
    A record lies in a section of its own, so nothing that is read of the symbols
    is changed. -/

namespace ElfFile

open ByteFiles Checks LoopRules

variable {b : Buffer} {e : ElfInfo} {t : SymtabCache} {q : Request} {name : CString} {x : Filled}
  {j k m n p : Nat} {r : Except Halt (Nat × Nat × ElfInfo)}

/-! ## What is read of a symbol -/

/-- The string that starts in a table ends in it. -/
theorem inString_lt {a size : Nat} (h : InString b.data (a + k) p) (hk : k < size)
    (hlast : b.data (a + size - 1) = 0) : p < a + size := by
  by_contra hout
  exact h.2 (a + size - 1) (by omega) (by omega) hlast

/-- A byte that is read of a symbol is in a part of the file that holds no records. -/
theorem reads_covered (hv : Valid b) (hsym : b.HasSymtab)
    (hj : j < (b.tableOf b.symtabNdx).nsymtab) (hp : Reads b b.table j p) :
    Covers b .header p ∨ Covers b .sections p
      ∨ ∃ i, Covers b (.contents i) p ∧ b.val (shType b.shoff i) ≠ shtProgbits := by
  have hlt := Buffer.symtabNdx_lt hv
  obtain ⟨hlink, hstr⟩ := (hv.sections _ hlt).link hsym.type
  rcases hp with hcount | hentry | hname | hsection
  · left
    simp only [eShnum] at hcount
    simp only [Covers, sizeofHeader]
    omega
  · right; right
    refine ⟨b.symtabNdx, ?_, by rw [hsym.type]; decide⟩
    have hcovers := covers_entry hv hsym hj (k := p - (stName b.table.symtab j).off) (by omega)
    rwa [show (entryOf b.table.symtab j).off = (stName b.table.symtab j).off from rfl,
      Nat.add_sub_cancel' hentry.1] at hcovers
  · right; right
    obtain ⟨-, -, hlast⟩ := (hv.sections _ hlink).strtab hstr
    refine ⟨_, ⟨hlink, fileBacked_of_type hstr (by decide), ?_, ?_⟩, by rw [hstr]; decide⟩
    · exact Nat.le_trans (Nat.le_add_right _ _) hname.1
    · exact inString_lt hname ((hv.sections _ hlt).symbols hsym.type j hj) hlast
  · right; left
    obtain ⟨hi, hfirst, hlast⟩ := hsection
    have hcovers := LaidOut.covers_sect hi (k := p - sect b.shoff (sectionOf b b.table j))
      (by omega)
    rwa [Nat.add_sub_cancel' hfirst] at hcovers

/-- The record of a symbol is in its section. -/
theorem record_covered (hdefines : Defines b t j) (hin : Inside b t j)
    (hfirst : place b t j ≤ p) (hlast : p < place b t j + sizeofSymtabref) :
    Covers b (.contents (sectionOf b t j)) p := by
  obtain ⟨⟨-, hprogbits⟩, hfrom, hupto⟩ := hin
  refine ⟨hdefines.2, fileBacked_of_type hprogbits (by decide), ?_⟩
  simp only [place, bytesOf] at hfirst hlast hupto
  omega

/-- So it is no byte that is read. -/
theorem record_unread (hv : Valid b) (hlaid : LaidOut b) (hsym : b.HasSymtab)
    (hdefines : Defines b b.table k) (hin : Inside b b.table k)
    (hj : j < (b.tableOf b.symtabNdx).nsymtab) (hp : Reads b b.table j p) :
    p < place b b.table k ∨ place b b.table k + sizeofSymtabref ≤ p := by
  by_contra hmeet
  have hrecord := record_covered hdefines hin (p := p) (by omega) (by omega)
  rcases reads_covered hv hsym hj hp with hheader | hsections | ⟨i, hcontents, htype⟩
  · exact Region.noConfusion (hlaid _ _ p hheader hrecord)
  · exact Region.noConfusion (hlaid _ _ p hsections hrecord)
  · obtain rfl := Region.contents.inj (hlaid _ _ p hcontents hrecord)
    exact htype hin.1.2

/-! ## The loop -/

section Loop

variable (h : Prepared b t e)

include h

/-- Symbols that have another name or are no objects. -/
theorem rest_skip (hagrees : ∀ j, j < t.known.nsymtab → Agrees b t x.data j)
    (hno : ∀ j, m ≤ j → j < n → ¬ Object b t.known q.name j) (hmn : m ≤ n)
    (hn : n ≤ t.known.nsymtab) :
    Returns (rest e q t.known x m) r ↔ Returns (rest e q t.known x n) r := by
  induction n, hmn using Nat.le_induction with
  | base => exact Iff.rfl
  | succ n hmn ih =>
      have hknown : n < t.known.nsymtab := hn
      have hn' : n < t.nsymtab := Nat.lt_of_lt_of_le hknown (Nat.mod_le _ _)
      refine (ih (fun j hj hjn => hno j hj (Nat.lt_succ_of_lt hjn)) (Nat.le_of_lt hknown)).trans ?_
      by_cases hnamed : Named b t q.name n
      · have hdefines : ¬ Defines b t n :=
          fun hdefines => hno n hmn (Nat.lt_succ_self n) ⟨hknown, hnamed, hdefines⟩
        have hvisit : (x.state e (some n)).visit q n = .ok (x.state e (some n)) := by
          rw [visit_eq h (hagrees n hknown) hn', if_neg hdefines]
        exact rest_again h (hagrees n hknown) hknown hnamed hvisit
      · rw [rest_unnamed h (hagrees n hknown) hknown hnamed]

/-- A symbol whose record is filled in. -/
theorem rest_object (hagrees : Agrees b t x.data k) (hobject : Object b t.known q.name k)
    (haccepted : Accepted b t k) (hin : Inside b t k) (hcount : x.count + 1 < 2 ^ 32) :
    Returns (rest e q t.known x k) r
      ↔ Returns (rest e q t.known (x.add q t.known.nsymtab (place b t k)) (k + 1)) r := by
  have hk : k < t.nsymtab := Nat.lt_of_lt_of_le hobject.1 (Nat.mod_le _ _)
  exact rest_again h hagrees hobject.1 hobject.2.1
    (visit_good h hagrees hk hobject.2.2 haccepted hin hcount _)

end Loop

/-! ## The function -/

/-- The state of the loop before the first symbol. -/
def ElfInfo.unfilled (e : ElfInfo) (loadaddr : Nat) : Filled := ⟨e.data, e.changed, loadaddr, 0⟩

/-- The file with its symbol table. -/
def ElfInfo.tabled (e : ElfInfo) : ElfInfo := { e with cache := some e.table }

namespace Opened

variable (q) (loadaddr : Nat)

variable (h : Opened e) (hcache : e.cache = none) (hsym : e.HasSymtab)

include h hcache hsym

omit hcache in
theorem prepared : Prepared e.toBuffer (e.tableOf e.symtabNdx) e.tabled :=
  ⟨h.valid, rfl, h.sht, rfl, e.symtabNdx, Buffer.symtabNdx_lt h.valid, hsym.type, rfl⟩

/-- The loop over the symbols, from the first. -/
theorem rewriteSymtabref_eq : e.rewriteSymtabref q loadaddr
    = rest e.tabled q e.table (e.unfilled loadaddr) 0 := by
  funext budget
  have hsame : e.tabled.withFilled (e.unfilled loadaddr) = e.tabled := rfl
  have hsymtab : e.symtab = .ok e.tabled := h.symtab_eq hcache hsym
  rw [ElfInfo.rewriteSymtabref, findSymbol_table hsymtab rfl, rest, hsame,
    show ElfInfo.startAfter none = 0 from rfl]
  cases hfrom : e.tabled.findSymbolFrom e.table q.name 0 (e.table.nsymtab - 0) <;> rfl

/-- **NO SYMBOL** with the name: nothing is done. -/
theorem rewrite_none (hno : ∀ j, ¬ Object e.toBuffer e.table q.name j) :
    Returns (e.rewriteSymtabref q loadaddr) (.ok (0, loadaddr, e.tabled)) := by
  have hp := h.prepared hsym
  rw [h.rewriteSymtabref_eq q loadaddr hcache hsym]
  exact (rest_skip hp (fun _ _ _ _ => rfl) (fun j _ _ => hno j) (Nat.zero_le _)
    (Nat.le_refl _)).mpr (rest_end (Nat.le_refl _))

section OneSymbol

variable (hobject : Object e.toBuffer e.table q.name k)
  (honce : ∀ j, Object e.toBuffer e.table q.name j → j = k)

include hobject honce

/-- The loop from a symbol on that comes up. -/
theorem rewrite_reaches : Returns (e.rewriteSymtabref q loadaddr) r
    ↔ Returns (rest e.tabled q e.table (e.unfilled loadaddr) k) r := by
  rw [h.rewriteSymtabref_eq q loadaddr hcache hsym]
  refine rest_skip (h.prepared hsym) (fun _ _ _ _ => rfl) (fun j _ hj hobject' => ?_)
    (Nat.zero_le _) (Nat.le_of_lt hobject.1)
  exact absurd (honce j hobject') (Nat.ne_of_lt hj)

/-- **ONE SYMBOL** with the name: its record is filled in. -/
theorem rewrite_one (hlaid : LaidOut e.toBuffer) (haccepted : Accepted e.toBuffer e.table k)
    (hin : Inside e.toBuffer e.table k) :
    Returns (e.rewriteSymtabref q loadaddr)
      (.ok (1, ((e.unfilled loadaddr).add q e.table.nsymtab (place e.toBuffer e.table k)).loadaddr,
        e.tabled.withFilled
          ((e.unfilled loadaddr).add q e.table.nsymtab (place e.toBuffer e.table k)))) := by
  have hp := h.prepared hsym
  rw [h.rewrite_reaches q loadaddr hcache hsym hobject honce]
  refine (rest_object hp (fun _ _ => rfl) hobject haccepted hin
    (show 0 + 1 < 2 ^ 32 by decide)).mpr ?_
  refine (rest_skip hp (fun j hj p hread => ?_) (fun j hj _ hobject' => ?_) hobject.1
    (Nat.le_refl _)).mpr (rest_end (Nat.le_refl _))
  · exact Filled.add_apart (record_unread h.valid hlaid hsym hobject.2.2 hin
      (Nat.lt_of_lt_of_le hj (Nat.mod_le _ _)) hread)
  · exact absurd (honce j hobject') (Nat.ne_of_gt hj)

/-- **A SYMBOL** that is refused ends the program. -/
theorem rewrite_refused (hrefused : ¬ Accepted e.toBuffer e.table k) :
    ∃ halt, Returns (e.rewriteSymtabref q loadaddr) (.error halt) := by
  have hp := h.prepared hsym
  have hk : k < (e.tableOf e.symtabNdx).nsymtab := Nat.lt_of_lt_of_le hobject.1 (Nat.mod_le _ _)
  have hagrees : Agrees e.toBuffer (e.tableOf e.symtabNdx) (e.unfilled loadaddr).data k :=
    fun _ _ => rfl
  obtain ⟨halt, hvisit, -⟩ :=
    visit_refused (q := q) hp hagrees hk hobject.2.2 hrefused (some k)
  exact ⟨halt, (h.rewrite_reaches q loadaddr hcache hsym hobject honce).mpr
    (rest_halt hp hagrees hobject.1 hobject.2.1 hvisit)⟩

end OneSymbol

end Opened

/-! ## The record that is left -/

/-- The records of the symbols with the name hold the address of the table. -/
structure Recorded (b : Buffer) (q : Request) (loadaddr : Nat) : Prop where
  accepted : ∀ j, Object b b.table q.name j → Accepted b b.table j ∧ Inside b b.table j
  once : ∀ i j, Object b b.table q.name i → Object b b.table q.name j → i = j
  record : ∀ j, Object b b.table q.name j →
    num b.data (place b b.table j) sizeofSymtabref = q.record loadaddr b.table.nsymtab

/-- The address of the table: the one that is given, else what stands in the record. -/
def LoadAddress (b : Buffer) (name : CString) (given a : Nat) : Prop :=
  if given ≠ 0 then a = given
  else (∀ j, Object b b.table name j → a = num b.data (place b b.table j) 8)
    ∧ ((∀ j, ¬ Object b b.table name j) → a = 0)

/-- The numbers of a request are 64 bits long. -/
theorem record_lt {loadaddr nsymtab : Nat} (hsize : q.size < 2 ^ 64) (haddr : loadaddr < 2 ^ 64)
    (hcount : nsymtab < 2 ^ 32) : q.record loadaddr nsymtab < 256 ^ sizeofSymtabref := by
  have hstrtab : (loadaddr + q.strtabOff) % 2 ^ 64 < 2 ^ 64 := Nat.mod_lt _ (by decide)
  simp only [Request.record, sizeofSymtabref]
  omega

/-- The address is the first word of a record. -/
theorem first_of_record {d : Bytes} {a loadaddr nsymtab : Nat} (haddr : loadaddr < 2 ^ 64)
    (h : num d a sizeofSymtabref = q.record loadaddr nsymtab) : num d a 8 = loadaddr := by
  have hfirst := num_lt d a 8
  have hsplit := num_add d a 8 24
  rw [show 8 + 24 = sizeofSymtabref from rfl, h, Request.record] at hsplit
  omega

/-- The number of symbols is kept in 32 bits. -/
theorem table_count_lt (b : Buffer) : b.table.nsymtab < 2 ^ 32 := Nat.mod_lt _ (by decide)

/-- A file in which a record is filled in. -/
theorem inPlace_record {b' : Buffer} (hv : Valid b) (hlaid : LaidOut b) (hsym : b.HasSymtab)
    (hdefines : Defines b b.table k) (hin : Inside b b.table k) (hsize : b'.size = b.size)
    (hdata : ∀ p, p < place b b.table k ∨ place b b.table k + sizeofSymtabref ≤ p →
      b'.data p = b.data p) : InPlace b b' := by
  have hapart : ∀ p, ¬ Covers b (.contents (sectionOf b b.table k)) p → b'.data p = b.data p := by
    intro p hp
    refine hdata p ?_
    by_contra hmeet
    exact hp (record_covered hdefines hin (by omega) (by omega))
  refine InPlace.within hv hlaid Region.noConfusion hsize hapart
    (fun p hcovers hp => absurd hin.1.2 (hp.not_covered hlaid hcovers).1)
    (reordered_apart hv hlaid hsym (fun hsame => ?_) hapart)
  have htype := hsym.type.symm.trans (Region.contents.inj hsame ▸ hin.1.2)
  exact absurd htype (by decide)

/-- Symbols that only stand elsewhere keep their records. -/
theorem Recorded.inPlace {b b' : Buffer} {loadaddr : Nat} (hrec : Recorded b q loadaddr)
    (h : InPlace b b') (hv : Valid b) (hsym : b.HasSymtab)
    (hrecords : ∀ i p, Covers b (.contents i) p → b.val (shType b.shoff i) = shtProgbits →
      b'.data p = b.data p) : Recorded b' q loadaddr := by
  obtain ⟨σ, hσ⟩ := h.symbols
  have hr := h.refiled hv
  have hs := h.shuffled hv hσ
  refine ⟨fun j hobject => ?_, fun i j hi hj => ?_, fun j hobject => ?_⟩
  · obtain ⟨hj, hold⟩ := (hr.object_iff hv hsym hs).mp hobject
    obtain ⟨haccepted, hin⟩ := hrec.accepted _ hold
    exact ⟨(hr.accepted_iff hv hsym hs hj hold.2.2.2).mpr haccepted,
      (hr.inside_iff hv hsym hs hj hold.2.2.2).mpr hin⟩
  · obtain ⟨hi, hi'⟩ := (hr.object_iff hv hsym hs).mp hi
    obtain ⟨hj, hj'⟩ := (hr.object_iff hv hsym hs).mp hj
    exact hσ.known.injOn hi hj (hrec.once _ _ hi' hj')
  · obtain ⟨hj, hold⟩ := (hr.object_iff hv hsym hs).mp hobject
    obtain ⟨-, hin⟩ := hrec.accepted _ hold
    have hk := hold.2.2.2
    have hplace : place b' b'.table j = place b b.table (σ j) := by
      rw [place, place, hr.sectionOf_eq hv hsym hs hj, hr.valueOf_eq hv hsym hs hj,
        (hr.section_eq hv hsym hs hj hk hin.1.2).1, h.shoff, h.offset hk]
    rw [hplace, hr.nsymtab_eq hv hsym, ← hrec.record _ hold]
    refine num_congr fun i hi => hrecords _ _ (record_covered hold.2.2 hin ?_ ?_) hin.1.2
    · exact Nat.le_add_right _ _
    · exact Nat.add_lt_add_left hi _

end ElfFile
