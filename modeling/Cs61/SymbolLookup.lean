import Mathlib.Data.Nat.Find
import Cs61.BinarySearch
import Cs61.ElfSymbols
import Cs61.PageTable

/-! # `lookup_symbol` — the kernel's search in its symbol table

    The search compares addresses only.  An address belongs to the last
    ordinary symbol at or below it, if that symbol reaches it: symbols that
    enclose others and stretches of more than 0x1000 bytes at the end of the
    table are not looked for.  Special symbols come first in the table, with
    addresses in no order, and may send the search the wrong way, as may another
    symbol at the address itself (`not_found`).

    * `lookup_sound` — what is reported is at or below the address;
    * `lookup_nearest` — the last ordinary symbol is found if it reaches the
      address, in a table that does not send the search the wrong way. -/

namespace SymbolLookup

open BinarySearch ElfSymbols PageTable

/-! ## The search -/

/-- `SYMTAB_ADDR`. -/
def symtabAddr : Word := 0x1000000

/-- `elf_symtabref`, as the search reads it: the table and the string table. -/
structure ElfSymtabref where
  sym : List ElfSymbol
  strtab : Word

/-- `symtab.nsym`. -/
def ElfSymtabref.nsym (symtab : ElfSymtabref) : Nat := symtab.sym.length

/-- `symtab.sym[m]`. -/
def ElfSymtabref.symAt (symtab : ElfSymtabref) (m : Nat) : ElfSymbol := symtab.sym.getD m nullSymbol

/-- `sym.st_size == 0 || addr <= sym.st_value + sym.st_size`. -/
def reaches (sym : ElfSymbol) (addr : Word) : Bool :=
  sym.stSize == 0 || addr ≤ sym.stValue + sym.stSize

/-- The address lies before the next entry; the last entry takes a page. -/
def beforeNext (symtab : ElfSymtabref) (addr : Word) (m : Nat) : Bool :=
  if m + 1 = symtab.nsym then addr < (symtab.symAt m).stValue + 0x1000
  else addr < (symtab.symAt (m + 1)).stValue

/-- The search ends at the entry: it is at or below the address, the next one is above, and
    it reaches the address. -/
def hits (symtab : ElfSymtabref) (addr : Word) (m : Nat) : Bool :=
  (symtab.symAt m).stValue ≤ addr && beforeNext symtab addr m && reaches (symtab.symAt m) addr

/-- One pass of the loop. -/
def probe (symtab : ElfSymtabref) (addr : Word) (m : Nat) : Probe ElfSymbol :=
  if hits symtab addr m then .found (symtab.symAt m)
  else if (symtab.symAt m).stValue < addr then .right
  else .left

/-- What a call leaves: `kernel_pagetable[2].entry[8]`, its result, and what it
    stores through its pointers. -/
structure Lookup where
  entry : Word
  result : Bool
  name : Option Word
  start : Option Word
deriving DecidableEq

/-- The mapping of the table. -/
def mapSymtab (entry : Word) : Word :=
  if entry = 0 then symtabAddr ||| pteP ||| pteW ||| ptePS else entry

/-- `lookup_symbol(addr, name, start)`; the flags say which pointers are not null. -/
def lookupSymbol (symtab : ElfSymtabref) (entry addr : Word) (name start : Bool) : Lookup :=
  match search (probe symtab addr) 0 symtab.nsym with
  | none => ⟨mapSymtab entry, false, none, none⟩
  | some sym =>
      if sym.stValue = 0 then ⟨mapSymtab entry, false, none, none⟩
      else
        { entry := mapSymtab entry
          result := true
          name := if name then some (symtab.strtab + sym.stName.setWidth 64) else none
          start := if start then some sym.stValue else none }

variable {symtab : ElfSymtabref} {entry addr : Word} {m : Nat}

theorem probe_found_iff {sym : ElfSymbol} : probe symtab addr m = .found sym
    ↔ hits symtab addr m = true ∧ symtab.symAt m = sym := by
  rw [probe]
  split_ifs <;> simp_all

/-- A hit is not above the address. -/
theorem le_of_hits (h : hits symtab addr m = true) : (symtab.symAt m).stValue ≤ addr := by
  rw [hits, Bool.and_eq_true, Bool.and_eq_true, decide_eq_true_iff] at h
  exact h.1.1

theorem symAt_mem (h : m < symtab.nsym) : symtab.symAt m ∈ symtab.sym := by
  rw [ElfSymtabref.symAt, List.getD_eq_getElem _ _ h]
  exact List.getElem_mem h

/-- A call that reports an entry of the table. -/
def Reports (symtab : ElfSymtabref) (addr : Word) (name : Bool) (found : Lookup) : Prop :=
  ∃ sym ∈ symtab.sym, sym.stValue ≤ addr ∧ found.result = true ∧ found.start = some sym.stValue
    ∧ found.name = if name then some (symtab.strtab + sym.stName.setWidth 64) else none

/-- **SOUNDNESS**: a call that returns true reports an entry at or below the
    address. -/
theorem lookup_sound {name : Bool} (h : (lookupSymbol symtab entry addr name true).result = true) :
    Reports symtab addr name (lookupSymbol symtab entry addr name true) := by
  rw [lookupSymbol] at h ⊢
  cases hsearch : search (probe symtab addr) 0 symtab.nsym with
  | none =>
      rw [hsearch] at h
      cases h
  | some sym =>
      rw [hsearch] at h
      dsimp only at h ⊢
      by_cases hzero : sym.stValue = 0
      · rw [if_pos hzero] at h
        cases h
      · obtain ⟨m, -, hlt, hprobe⟩ := exists_of_search hsearch
        obtain ⟨hhits, rfl⟩ := probe_found_iff.mp hprobe
        rw [if_neg hzero]
        exact ⟨_, symAt_mem hlt, le_of_hits hhits, rfl, rfl, rfl⟩

/-! ## The last symbol at or below an address -/

/-- The last ordinary entry at or below the address. -/
structure Nearest (symtab : ElfSymtabref) (addr : Word) (m : Nat) : Prop where
  lt : m < symtab.nsym
  ordinary : (symtab.symAt m).isSpecial = false
  le : (symtab.symAt m).stValue ≤ addr
  next : ∀ j, m < j → j < symtab.nsym → addr < (symtab.symAt j).stValue

/-- The entry reaches the address; at the end of the table, the address lies in
    its page. -/
def Covers (symtab : ElfSymtabref) (addr : Word) (m : Nat) : Prop :=
  (m + 1 = symtab.nsym → addr < (symtab.symAt m).stValue + 0x1000)
    ∧ reaches (symtab.symAt m) addr = true

/-- The nearest symbol is a hit when it covers the address. -/
theorem Nearest.hits_iff (h : Nearest symtab addr m) :
    hits symtab addr m = true ↔ Covers symtab addr m := by
  rw [hits, Bool.and_eq_true, Bool.and_eq_true, decide_eq_true_iff, Covers]
  refine and_congr_left fun _ => ?_
  rw [beforeNext]
  by_cases hlast : m + 1 = symtab.nsym
  · rw [if_pos hlast, decide_eq_true_iff]
    exact ⟨fun hlt _ => hlt.2, fun hlt => ⟨h.le, hlt hlast⟩⟩
  · rw [if_neg hlast, decide_eq_true_iff]
    have hlt := h.lt
    exact ⟨fun _ hc => absurd hc hlast, fun _ => ⟨h.le, h.next _ (Nat.lt_succ_self m) (by omega)⟩⟩

/-- An entry behind the nearest one sends the search back. -/
theorem Nearest.probe_left (h : Nearest symtab addr m) {a : Nat} (ha : m < a)
    (hlt : a < symtab.nsym) : probe symtab addr a = .left := by
  have hvalue := h.next a ha hlt
  have hhits : ¬ hits symtab addr a = true :=
    fun hh => absurd (le_of_hits hh) (BitVec.not_le.mpr hvalue)
  rw [probe, if_neg hhits, if_neg (BitVec.not_lt.mpr (BitVec.le_of_lt hvalue))]

/-- The last ordinary entry at or below an address is the only one. -/
theorem Nearest.unique (h : Nearest symtab addr m) {m' : Nat} (h' : Nearest symtab addr m') :
    m = m' := by
  rcases Nat.lt_trichotomy m m' with hlt | heq | hlt
  · exact absurd h'.le (BitVec.not_le.mpr (h.next m' hlt h'.lt))
  · exact heq
  · exact absurd h.le (BitVec.not_le.mpr (h'.next m hlt h.lt))

/-- **THE SEARCH** ends at the nearest entry: with a hit or without one. -/
theorem Nearest.search (h : Nearest symtab addr m)
    (hbefore : ∀ a < m, probe symtab addr a = .right) :
    search (probe symtab addr) 0 symtab.nsym
      = if hits symtab addr m = true then some (symtab.symAt m) else none := by
  have hall : ∀ a, a < symtab.nsym → a ≠ m → probe symtab addr a = towards m a := by
    intro a ha hne
    rw [towards]
    rcases Nat.lt_or_gt_of_ne hne with hlt | hgt
    · rw [hbefore a hlt, if_pos hlt]
    · rw [h.probe_left hgt ha, if_neg (Nat.lt_asymm hgt)]
  split_ifs with hhits
  · exact search_of_towards (Nat.zero_le m) h.lt (probe_found_iff.mpr ⟨hhits, rfl⟩) hall
  · refine Option.eq_none_iff_forall_ne_some.mpr fun sym hsearch => ?_
    obtain ⟨a, -, halt, hprobe⟩ := exists_of_search hsearch
    by_cases hne : a = m
    · subst hne
      exact hhits (probe_found_iff.mp hprobe).1
    · rw [hall a halt hne, towards] at hprobe
      split_ifs at hprobe

/-! ## Tables in order -/

variable {T : SymbolTable}

/-- The table in memory, with its string table at `strtab`. -/
def ref (T : SymbolTable) (strtab : Word) : ElfSymtabref := ⟨T.syms, strtab⟩

/-- The address lies inside some function or object. -/
def Inside (T : SymbolTable) (addr : Word) : Prop :=
  ∃ sym ∈ T.syms, (sym.type = sttObject ∨ sym.type = sttFunc) ∧ sym.stValue ≠ 0
    ∧ sym.stValue ≤ addr ∧ addr.toNat < sym.stValue.toNat + sym.stSize.toNat

/-- The table is sorted by address. -/
theorem symAt_sorted (T : SymbolTable) (strtab : Word) {i j : Nat} (hi : 0 < i) (hij : i < j)
    (hj : j < (ref T strtab).nsym) :
    symbolLess ((ref T strtab).symAt j) ((ref T strtab).symAt i) = false := by
  obtain ⟨i, rfl⟩ := Nat.exists_eq_succ_of_ne_zero (Nat.ne_of_gt hi)
  obtain ⟨j, rfl⟩ := Nat.exists_eq_succ_of_ne_zero (Nat.ne_of_gt (Nat.lt_trans hi hij))
  have hj' : j < T.rest.length := Nat.lt_of_succ_lt_succ hj
  have hij' : i < j := Nat.lt_of_succ_lt_succ hij
  have h := List.pairwise_iff_getElem.mp T.sorted i j (Nat.lt_trans hij' hj') hj' hij'
  have hat : ∀ k, k < T.rest.length → (ref T strtab).symAt (k + 1) = T.rest.getD k nullSymbol :=
    fun k _ => rfl
  rw [hat i (Nat.lt_trans hij' hj'), hat j hj', List.getD_eq_getElem _ _ hj',
    List.getD_eq_getElem _ _ (Nat.lt_trans hij' hj')]
  exact h

theorem ordinary_of_type {sym : ElfSymbol} (h : sym.type = sttObject ∨ sym.type = sttFunc) :
    sym.isSpecial = false := by
  rw [ElfSymbol.isSpecial]
  rcases h with h | h <;> rw [h] <;> decide

/-- An address inside the table has a nearest symbol. -/
theorem exists_nearest (strtab : Word) (h : Inside T addr) :
    ∃ m, Nearest (ref T strtab) addr m ∧ ((ref T strtab).symAt m).stValue ≠ 0 := by
  obtain ⟨sym, hmem, htype, hvalue, hle, -⟩ := h
  have hordinary := ordinary_of_type htype
  obtain ⟨i, hi, rfl⟩ := List.getElem_of_mem hmem
  have hat : (ref T strtab).symAt i = T.syms[i] := List.getD_eq_getElem _ _ hi
  rw [← hat] at hordinary hvalue hle
  have hpos : 0 < i := by
    refine Nat.pos_of_ne_zero ?_
    rintro rfl
    exact hvalue rfl
  -- the last entry at or below the address is behind this one, so it is ordinary, too
  let P : Nat → Prop := fun j => j < (ref T strtab).nsym ∧ ((ref T strtab).symAt j).stValue ≤ addr
  have hP : P (Nat.findGreatest P (ref T strtab).nsym) :=
    Nat.findGreatest_spec (m := i) (Nat.le_of_lt hi) ⟨hi, hle⟩
  have him : i ≤ Nat.findGreatest P (ref T strtab).nsym :=
    Nat.le_findGreatest (Nat.le_of_lt hi) ⟨hi, hle⟩
  have hnext : ∀ j, Nat.findGreatest P (ref T strtab).nsym < j → j < (ref T strtab).nsym → ¬ P j :=
    fun j hj hlt => Nat.findGreatest_is_greatest hj (Nat.le_of_lt hlt)
  generalize Nat.findGreatest P (ref T strtab).nsym = m at hP him hnext
  obtain ⟨hlt, hlem⟩ := hP
  have hm : ((ref T strtab).symAt m).isSpecial = false
      ∧ ((ref T strtab).symAt m).stValue ≠ 0 := by
    rcases Nat.eq_or_lt_of_le him with rfl | him
    · exact ⟨hordinary, hvalue⟩
    · obtain ⟨hspecial, horder⟩ := not_symbolLess_iff.mp (symAt_sorted T strtab hpos him hlt)
      have hm : ((ref T strtab).symAt m).isSpecial = false := by
        refine Bool.eq_false_of_not_eq_true fun hc => ?_
        rw [hspecial hc] at hordinary
        cases hordinary
      refine ⟨hm, fun hzero => ?_⟩
      rcases horder hordinary hm with hlt' | ⟨heq, -⟩
      · rw [hzero] at hlt'
        exact absurd hlt' (BitVec.not_lt_zero)
      · exact hvalue (heq.trans hzero)
  refine ⟨m, ⟨hlt, hm.1, hlem, ?_⟩, hm.2⟩
  intro j hj hjlt
  exact BitVec.not_le.mp fun hle => hnext j hj hjlt ⟨hjlt, hle⟩

/-- What the search relies on beside the order: special symbols are at addresses
    below the one that is looked up, and at most one entry is at that address. -/
structure Clear (T : SymbolTable) (addr : Word) : Prop where
  special : ∀ sym ∈ T.syms, sym.isSpecial = true → sym.stValue < addr
  alone : T.syms.Pairwise fun a b => ¬ (a.stValue = addr ∧ b.stValue = addr)

instance (T : SymbolTable) (addr : Word) : Decidable (Clear T addr) :=
  have : Decidable (T.syms.Pairwise fun a b => ¬ (a.stValue = addr ∧ b.stValue = addr)) :=
    List.instDecidablePairwise T.syms
  decidable_of_iff (_ ∧ _) ⟨fun ⟨h₁, h₂⟩ => ⟨h₁, h₂⟩, fun ⟨h₁, h₂⟩ => ⟨h₁, h₂⟩⟩

/-- An ordinary entry before the nearest one is at no higher address. -/
theorem Nearest.le_before {strtab : Word} (h : Nearest (ref T strtab) addr m) {a : Nat}
    (ha : a ≤ m) (hordinary : ((ref T strtab).symAt a).isSpecial = false) :
    ((ref T strtab).symAt a).stValue ≤ ((ref T strtab).symAt m).stValue := by
  rcases Nat.eq_or_lt_of_le ha with rfl | hlt
  · exact BitVec.le_refl _
  rcases Nat.eq_zero_or_pos a with rfl | hpos
  · exact BitVec.le_def.mpr (Nat.zero_le _)
  · rcases (not_symbolLess_iff.mp (symAt_sorted T strtab hpos hlt h.lt)).2 hordinary
      h.ordinary with hv | ⟨hv, -⟩
    · exact BitVec.le_of_lt hv
    · exact hv ▸ BitVec.le_refl _

/-- Every entry before the nearest one sends the search on. -/
theorem Nearest.probe_right {strtab : Word} (h : Nearest (ref T strtab) addr m)
    (hclear : Clear T addr) {a : Nat} (ha : a < m) : probe (ref T strtab) addr a = .right := by
  have hlt := h.lt
  -- all entries up to the nearest one are at or below the address
  have hle : ∀ i, i ≤ m → ((ref T strtab).symAt i).stValue ≤ addr := by
    intro i hi
    cases hspecial : ((ref T strtab).symAt i).isSpecial
    · exact BitVec.le_trans (h.le_before hi hspecial) h.le
    · exact BitVec.le_of_lt (hclear.special _ (symAt_mem (by omega)) hspecial)
  have hne : ((ref T strtab).symAt a).stValue ≠ addr := by
    intro heq
    cases hspecial : ((ref T strtab).symAt a).isSpecial
    · -- the nearest one would be at the address, too
      have hm : ((ref T strtab).symAt m).stValue = addr := by
        refine BitVec.le_antisymm h.le ?_
        rw [← heq]
        exact h.le_before (Nat.le_of_lt ha) hspecial
      have hpair := List.pairwise_iff_getElem.mp hclear.alone a m (Nat.lt_trans ha hlt) hlt ha
      refine hpair ⟨?_, ?_⟩
      · rw [← heq, ElfSymtabref.symAt, List.getD_eq_getElem]
        rfl
      · rw [← hm, ElfSymtabref.symAt, List.getD_eq_getElem]
        rfl
    · have hbelow := hclear.special _ (symAt_mem (Nat.lt_trans ha hlt)) hspecial
      rw [heq] at hbelow
      exact BitVec.lt_irrefl _ hbelow
  have hhits : ¬ hits (ref T strtab) addr a = true := by
    intro hhits
    rw [hits, Bool.and_eq_true, Bool.and_eq_true, beforeNext, if_neg (by omega),
      decide_eq_true_iff, decide_eq_true_iff] at hhits
    exact absurd hhits.1.2 (BitVec.not_lt.mpr (hle (a + 1) ha))
  have hlt' : ((ref T strtab).symAt a).stValue < addr :=
    BitVec.not_le.mp fun hge => hne (BitVec.le_antisymm (hle a (Nat.le_of_lt ha)) hge)
  rw [probe, if_neg hhits, if_pos hlt']

/-- A lookup reports the nearest symbol, or nothing. -/
theorem Nearest.reports_iff {strtab entry : Word} {name : Bool} (h : Nearest (ref T strtab) addr m)
    (hvalue : ((ref T strtab).symAt m).stValue ≠ 0) (hclear : Clear T addr) :
    Reports (ref T strtab) addr name (lookupSymbol (ref T strtab) entry addr name true)
      ↔ Covers (ref T strtab) addr m := by
  have hsearch := h.search fun a ha => h.probe_right hclear ha
  rw [← h.hits_iff]
  constructor
  · rintro ⟨sym, -, -, htrue, -⟩
    by_contra hno
    rw [lookupSymbol, hsearch, if_neg hno] at htrue
    cases htrue
  · intro hhits
    refine lookup_sound ?_
    rw [lookupSymbol, hsearch, if_pos hhits]
    dsimp only
    rw [if_neg hvalue]

/-- **THE NEAREST SYMBOL**: an address inside a function or object has a last
    ordinary symbol at or below it.  In a table that is clear of other symbols at
    the address and of special symbols at or above it, a symbol is reported if and
    only if that one covers the address. -/
theorem lookup_nearest (strtab entry : Word) (name : Bool) (h : Inside T addr)
    (hclear : Clear T addr) :
    ∃ m, Nearest (ref T strtab) addr m
      ∧ (Reports (ref T strtab) addr name (lookupSymbol (ref T strtab) entry addr name true)
        ↔ Covers (ref T strtab) addr m) := by
  obtain ⟨m, hm, hvalue⟩ := exists_nearest strtab h
  exact ⟨m, hm, hm.reports_iff hvalue hclear⟩

/-- An object of the examples. -/
def object (value size : Word) : ElfSymbol := ⟨1, sttObject, 0, 1, value, size⟩

/-- The symbol of a section. -/
def ofSection (value : Word) : ElfSymbol := ⟨0, 3, 0, 1, value, 0⟩

/-- A section and three objects in it. -/
def threeObjects : SymbolTable :=
  ⟨[ofSection 0x1000, object 0x1000 8, object 0x1010 4, object 0x1020 8], by decide⟩

/-- The last byte of the second object. -/
theorem lookup_nearest_small :
    Reports (ref threeObjects 0x3000) 0x1013 true
      (lookupSymbol (ref threeObjects 0x3000) 0 0x1013 true true) := by
  obtain ⟨m, hm, hiff⟩ := @lookup_nearest 0x1013 threeObjects 0x3000 0 true
    ⟨object 0x1010 4, by decide, Or.inl (by decide), by decide, by decide, by decide⟩ (by decide)
  have hnext : ∀ j < 5, 3 < j → (0x1013 : Word) < ((ref threeObjects 0x3000).symAt j).stValue := by
    decide
  have hnearest : Nearest (ref threeObjects 0x3000) 0x1013 3 :=
    ⟨by decide, by decide, by decide, fun j hj hlt => hnext j hlt hj⟩
  obtain rfl := hm.unique hnearest
  exact hiff.mpr ⟨by decide, by decide⟩

/-- An object of 4 bytes inside a larger one. -/
def nested : SymbolTable := ⟨[object 0x1000 0x100, object 0x1010 4, object 0x2000 8], by decide⟩

/-- Two objects at one address. -/
def aliased : SymbolTable := ⟨[object 0x1000 8, object 0x1000 8], by decide⟩

/-- A section at a higher address than the object. -/
def sectionAbove : SymbolTable :=
  ⟨[ofSection 0x2000, object 0x1000 8], by decide⟩

/-- **NOT FOUND**: an address behind the inner one of two nested symbols, the
    address of two symbols, and an address below a special symbol's. -/
theorem not_found :
    (Inside nested 0x1050 ∧ ¬ Reports (ref nested 0x3000) 0x1050 true
        (lookupSymbol (ref nested 0x3000) 0 0x1050 true true))
      ∧ (Inside aliased 0x1000 ∧ ¬ Reports (ref aliased 0x3000) 0x1000 true
        (lookupSymbol (ref aliased 0x3000) 0 0x1000 true true))
      ∧ Inside sectionAbove 0x1004 ∧ ¬ Reports (ref sectionAbove 0x3000) 0x1004 true
        (lookupSymbol (ref sectionAbove 0x3000) 0 0x1004 true true) := by
  have hno : ∀ (symtab : ElfSymtabref) (addr : Word) (found : Lookup), found.result = false →
      ¬ Reports symtab addr true found := by
    rintro symtab addr found hfalse ⟨sym, -, -, htrue, -⟩
    rw [hfalse] at htrue
    cases htrue
  refine ⟨⟨?_, hno _ _ _ (by decide +kernel)⟩, ⟨?_, hno _ _ _ (by decide +kernel)⟩, ?_,
    hno _ _ _ (by decide +kernel)⟩
  · exact ⟨object 0x1000 0x100, by decide, Or.inl (by decide), by decide, by decide, by decide⟩
  · exact ⟨object 0x1000 8, by decide, Or.inl (by decide), by decide, by decide, by decide⟩
  · exact ⟨object 0x1000 8, by decide, Or.inl (by decide), by decide, by decide, by decide⟩

end SymbolLookup
