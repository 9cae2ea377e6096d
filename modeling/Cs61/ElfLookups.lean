import Cs61.CStrings
import Cs61.ElfReads

/-! # Looking things up in a file that was accepted

    `find_section`, `section_display_name`, `first_offset`, `symtab` and
    `find_symbol` make no checks.  A lookup may leave a cache of where the symbols
    are; the cache always describes a symbol table that `validate` has checked
    (`Looked.ready`). -/

namespace ElfFile

open ByteFiles Checks

namespace ElfInfo

/-! ## The functions -/

/-- `strcmp(p, s) == 0`; nothing is read behind the first difference. -/
def sameString (e : ElfInfo) : Nat → List UInt8 → Except Stop Bool
  | p, [] => (e.char p).map (· = 0)
  | p, c :: s => e.char p >>= fun d => if d = c then sameString e (p + 1) s else .ok false

/-- `shstrtab()`. -/
def namesAt (e : ElfInfo) : Except Stop Nat := do
  e.get (shOffset e.sht (← e.get eShstrndx))

/-- Where the name is; an empty name is displayed as `[unnamed]`. -/
def sectionDisplayName (e : ElfInfo) (i : Nat) : Except Stop (Option Nat) := do
  if i < (← e.get eShnum) then
    let name := (← e.namesAt) + (← e.get (shName e.sht i))
    .ok (if (← e.char name) ≠ 0 then some name else none)
  else .error .assertion

/-- The loop of `find_section`, with `n` sections to go. -/
def findSectionFrom (e : ElfInfo) (names : Nat) (name : CString) : Nat → Nat → Except Stop Nat
  | _, 0 => .ok 0
  | i, n + 1 => do
      if ← e.sameString (names + (← e.get (shName e.sht i))) name.bytes then .ok i
      else findSectionFrom e names name (i + 1) n

/-- `find_section(name)`. -/
def findSection (e : ElfInfo) (name : CString) : Except Stop Nat := do
  if e.ok then e.findSectionFrom (← e.namesAt) name 0 (← e.get eShnum) else .error .assertion

/-- The loop of `first_offset`. -/
def firstOffsetFrom (e : ElfInfo) : Nat → Nat → Nat → Except Stop Nat
  | _, o, 0 => .ok o
  | i, o, n + 1 => do
      if ← e.fileBacked i then firstOffsetFrom e (i + 1) (min o (← e.get (shOffset e.sht i))) n
      else firstOffsetFrom e (i + 1) o n

/-- `first_offset()`. -/
def firstOffset (e : ElfInfo) : Except Stop Nat := do
  e.firstOffsetFrom 0 (2 ^ 64 - 1) (← e.get eShnum)

/-- `".symtab"`. -/
def symtabName : CString := ⟨[46, 115, 121, 109, 116, 97, 98], by simp⟩

/-- `symtab()` leaves the cache. -/
def symtab (e : ElfInfo) : Except Stop ElfInfo :=
  match e.cache with
  | some _ => .ok e
  | none => do
      let i ← e.findSection symtabName
      if ← both (.ok (i ≠ 0)) (e.test (shType e.sht i) (· = shtSymtab)) then
        let symtab ← e.get (shOffset e.sht i)
        let nsymtab := (← e.get (shSize e.sht i)) / sizeofSymbol % 2 ^ 32
        let strtabndx ← e.get (shLink e.sht i)
        let symstrtab ← e.get (shOffset e.sht strtabndx)
        .ok { e with cache := some ⟨symtab, nsymtab, symstrtab⟩ }
      else .ok e

/-- The loop of `find_symbol`, with `n` symbols to go. -/
def findSymbolFrom (e : ElfInfo) (c : SymtabCache) (name : CString) :
    Nat → Nat → Except Stop (Option Nat)
  | _, 0 => .ok none
  | i, n + 1 => do
      if ← e.sameString (c.symstrtab + (← e.get (stName c.symtab i))) name.bytes then .ok (some i)
      else findSymbolFrom e c name (i + 1) n

/-- Where `find_symbol` starts; `after` is an index into `symtab_`. -/
def startAfter : Option Nat → Nat
  | none => 0
  | some k => (k + 1) % 2 ^ 32

/-- `find_symbol(name, &symtab_[after])`: the index of the symbol. -/
def findSymbol (e : ElfInfo) (name : CString) (after : Option Nat) :
    Except Stop (Option Nat × ElfInfo) := do
  let e ← e.symtab
  match e.cache with
  | none => .ok (none, e)
  | some c =>
      .ok (← e.findSymbolFrom c name (startAfter after) (c.nsymtab - startAfter after), e)

end ElfInfo

/-- What lookups leave of a file. -/
inductive Looked (e : ElfInfo) : ElfInfo → Prop where
  | start : Looked e e
  | symtab {e' e'' : ElfInfo} : Looked e e' → e'.symtab = .ok e'' → Looked e e''
  | findSymbol {e' e'' : ElfInfo} {name : CString} {after r : Option Nat} :
      Looked e e' → e'.findSymbol name after = .ok (r, e'') → Looked e e''

/-! ## Names -/

namespace Valid

variable {b : Buffer} {i j : Nat}

/-- The name of a section. -/
theorem section_terminated (h : Valid b) (hi : i < b.shnum) :
    Terminated b (b.shstrtab + b.val (shName b.shoff i)) := by
  have hname := (h.sections i hi).name
  have hinside := h.names.inside
  exact ⟨_, by omega, by omega, h.names.last⟩

/-- A symbol of a symbol table, and its name. -/
theorem symbol_terminated (h : Valid b) (hi : i < b.shnum)
    (hsym : b.val (shType b.shoff i) = shtSymtab)
    (hj : j < b.val (shSize b.shoff i) / sizeofSymbol) :
    (stName (b.val (shOffset b.shoff i)) j).off + sizeofSymbol ≤ b.size
      ∧ Terminated b (b.val (shOffset b.shoff (b.val (shLink b.shoff i)))
          + b.val (stName (b.val (shOffset b.shoff i)) j)) := by
  have hsection := h.sections i hi
  obtain ⟨hoffset, hsize⟩ := hsection.range (hsym ▸ by decide) (hsym ▸ by decide)
  obtain ⟨hlink, hstr⟩ := hsection.link hsym
  have hname := hsection.symbols hsym j hj
  have hstrings := h.sections _ hlink
  obtain ⟨hoffset', hsize'⟩ := hstrings.range (hstr ▸ by decide) (hstr ▸ by decide)
  obtain ⟨-, -, hlast⟩ := hstrings.strtab hstr
  refine ⟨?_, _, ?_, ?_, hlast⟩
  · have hall := Nat.div_mul_le_self (b.val (shSize b.shoff i)) sizeofSymbol
    have hupto := Nat.mul_le_mul_right sizeofSymbol (Nat.succ_le_of_lt hj)
    simp only [stName, sizeofSymbol] at hall hupto ⊢
    omega
  · omega
  · omega

end Valid

/-! ## The lookups stay inside -/

/-- A cache that describes a symbol table of the file. -/
def CacheOk (b : Buffer) (c : SymtabCache) : Prop :=
  ∃ i, i < b.shnum ∧ b.val (shType b.shoff i) = shtSymtab ∧ c.symtab = b.val (shOffset b.shoff i)
    ∧ c.nsymtab ≤ b.val (shSize b.shoff i) / sizeofSymbol
    ∧ c.symstrtab = b.val (shOffset b.shoff (b.val (shLink b.shoff i)))

/-- A file that was accepted, and perhaps looked at. -/
structure Ready (e : ElfInfo) : Prop where
  valid : Valid e.toBuffer
  ok : e.ok = true
  sht : e.sht = e.shoff
  cache : ∀ c, e.cache = some c → CacheOk e.toBuffer c

namespace ElfInfo

variable {e : ElfInfo} {name : CString} {i p : Nat}

/-- A comparison with a string that ends in the file stays in it. -/
theorem sameString_defined {s : List UInt8} (hs : ∀ c ∈ s, c ≠ 0) (h : Terminated e.toBuffer p) :
    Defined (e.sameString p s) := by
  obtain ⟨q, hpq, hq, hzero⟩ := h
  induction s generalizing p with
  | nil =>
      rw [sameString, Buffer.char_ok (Nat.lt_of_le_of_lt hpq hq)]
      exact ⟨_, rfl⟩
  | cons c s ih =>
      rw [sameString, Buffer.char_ok (Nat.lt_of_le_of_lt hpq hq)]
      show Defined (if _ then _ else _)
      by_cases hc : e.data p = c
      · have hne : p ≠ q := fun heq => hs c List.mem_cons_self (hc ▸ heq ▸ hzero)
        rw [if_pos hc]
        exact ih (fun d hd => hs d (List.mem_cons_of_mem c hd)) (by omega)
      · exact ⟨false, if_neg hc⟩

/-- The names of sections are found. -/
theorem namesAt_eq (h : Ready e) : e.namesAt = .ok e.shstrtab := by
  have hok := h.valid.header
  obtain ⟨-, -, hoffset, -⟩ := hok.fields_inside hok.ndx_lt
  rw [namesAt, h.sht, Buffer.get_bind (hok.inside eShstrndx (by decide))]
  exact Buffer.get_ok hoffset

/-- So is the name of each section. -/
theorem sectionDisplayName_defined (h : Ready e) (hi : i < e.shnum) :
    Defined (e.sectionDisplayName i) := by
  have hok := h.valid.header
  obtain ⟨hname, -⟩ := hok.fields_inside hi
  obtain ⟨q, hpq, hq, -⟩ := h.valid.section_terminated hi
  rw [sectionDisplayName, Buffer.get_bind (hok.inside eShnum (by decide)),
    if_pos (show i < e.val eShnum from hi), namesAt_eq h, h.sht]
  show Defined (e.get _ >>= _)
  rw [Buffer.get_bind hname]
  show Defined (e.char _ >>= _)
  rw [Buffer.char_ok (Nat.lt_of_le_of_lt hpq hq)]
  exact ⟨_, rfl⟩

/-- The search for a section ends at one. -/
theorem findSectionFrom_gives (h : Ready e) (n i : Nat) (hi : i + n = e.shnum) :
    Gives (e.findSectionFrom e.shstrtab name i n) fun r => r < e.shnum := by
  have hok := h.valid.header
  induction n generalizing i with
  | zero => exact Gives.ok (Nat.pos_of_ne_zero hok.sections)
  | succ n ih =>
      have hlt : i < e.shnum := by omega
      obtain ⟨hname, -⟩ := hok.fields_inside hlt
      obtain ⟨same, hsame⟩ := sameString_defined name.nulFree (h.valid.section_terminated hlt)
      rw [findSectionFrom, h.sht, Buffer.get_bind hname, hsame]
      cases same with
      | true => exact Gives.ok hlt
      | false => exact ih (i + 1) (by omega)

/-- `find_section` gives a section, if only the first one. -/
theorem findSection_gives (h : Ready e) (name : CString) :
    Gives (e.findSection name) fun r => r < e.shnum := by
  rw [findSection, if_pos h.ok, namesAt_eq h]
  show Gives (e.get _ >>= _) _
  rw [Buffer.get_bind (h.valid.header.inside eShnum (by decide))]
  exact findSectionFrom_gives h e.shnum 0 (Nat.zero_add _)

/-- The loop of `first_offset` reads inside the file. -/
theorem firstOffsetFrom_defined (h : Ready e) (n i o : Nat) (hi : i + n = e.shnum) :
    Defined (e.firstOffsetFrom i o n) := by
  have hok := h.valid.header
  induction n generalizing i o with
  | zero => exact ⟨o, rfl⟩
  | succ n ih =>
      have hlt : i < e.shnum := by omega
      obtain ⟨-, -, hoffset, -⟩ := hok.fields_inside hlt
      obtain ⟨yes, hbacked, -⟩ := fileBacked_decides hok.toTablesOk h.sht hlt
      rw [firstOffsetFrom, hbacked, h.sht]
      cases yes with
      | true =>
          show Defined (e.get _ >>= _)
          rw [Buffer.get_bind hoffset]
          exact ih (i + 1) _ (by omega)
      | false => exact ih (i + 1) o (by omega)

/-- `first_offset` reads inside the file. -/
theorem firstOffset_defined (h : Ready e) : Defined e.firstOffset := by
  rw [firstOffset, Buffer.get_bind (h.valid.header.inside eShnum (by decide))]
  exact firstOffsetFrom_defined h e.shnum 0 _ (Nat.zero_add _)

/-- `symtab()` leaves the file, and a cache that describes it. -/
theorem symtab_gives (h : Ready e) :
    Gives e.symtab fun e' => Ready e' ∧ e'.toBuffer = e.toBuffer := by
  have hok := h.valid.header
  rw [symtab]
  cases hcache : e.cache with
  | some c => exact Gives.ok ⟨h, rfl⟩
  | none =>
      obtain ⟨i, hfind, hi⟩ := findSection_gives h symtabName
      obtain ⟨-, htype, hoffset, hsize, hlink⟩ := hok.fields_inside hi
      have htest : Decides (both (.ok (i ≠ 0)) (e.test (shType e.sht i) (· = shtSymtab)))
          (i ≠ 0 ∧ e.val (shType e.shoff i) = shtSymtab) := by
        rw [h.sht]
        exact Decides.both (Decides.ok decide_eq_true_iff) fun _ =>
          Buffer.test_decides htype decide_eq_true_iff
      obtain ⟨yes, hyes, hsym⟩ := htest
      show Gives (e.findSection symtabName >>= _) _
      rw [hfind]
      show Gives (both _ _ >>= _) _
      rw [hyes]
      cases yes with
      | false => exact Gives.ok ⟨h, rfl⟩
      | true =>
          obtain ⟨-, hsym⟩ := hsym.mp rfl
          obtain ⟨hlink_lt, -⟩ := (h.valid.sections i hi).link hsym
          obtain ⟨-, -, hoffset', -⟩ := hok.fields_inside hlink_lt
          rw [h.sht]
          show Gives (e.get _ >>= _) _
          rw [Buffer.get_bind hoffset, Buffer.get_bind hsize, Buffer.get_bind hlink,
            Buffer.get_bind hoffset']
          refine Gives.ok ⟨⟨h.valid, h.ok, rfl, ?_⟩, rfl⟩
          intro c hc
          rw [← Option.some.inj hc]
          exact ⟨i, hi, hsym, rfl, Nat.mod_le _ _, rfl⟩

/-- The search for a symbol reads inside the file. -/
theorem findSymbolFrom_defined {c : SymtabCache} (h : Ready e) (hc : CacheOk e.toBuffer c)
    (n i : Nat) (hi : n ≠ 0 → i + n ≤ c.nsymtab) : Defined (e.findSymbolFrom c name i n) := by
  obtain ⟨k, hk, hsym, htab, hcount, hstr⟩ := hc
  induction n generalizing i with
  | zero => exact ⟨none, rfl⟩
  | succ n ih =>
      have hi := hi (Nat.succ_ne_zero n)
      obtain ⟨hsymbol, hname⟩ := h.valid.symbol_terminated hk hsym (j := i) (by omega)
      obtain ⟨same, hsame⟩ := sameString_defined name.nulFree hname
      have hname_inside := Nat.le_trans (Nat.add_le_add_left (show 4 ≤ sizeofSymbol by decide) _) hsymbol
      rw [findSymbolFrom, htab, hstr, Buffer.get_bind hname_inside, hsame]
      cases same with
      | true => exact ⟨some i, rfl⟩
      | false => exact ih (i + 1) (by omega)

/-- `find_symbol` leaves what `symtab()` leaves. -/
theorem findSymbol_gives (h : Ready e) (name : CString) (after : Option Nat) :
    Gives (e.findSymbol name after) fun r => Ready r.2 ∧ r.2.toBuffer = e.toBuffer := by
  obtain ⟨e', hsymtab, hready, hbuffer⟩ := symtab_gives h
  rw [findSymbol, hsymtab]
  cases hcache : e'.cache with
  | none =>
      show Gives (match e'.cache with | none => _ | some c => _) _
      rw [hcache]
      exact Gives.ok ⟨hready, hbuffer⟩
  | some c =>
      have hloop : Defined
          (e'.findSymbolFrom c name (startAfter after) (c.nsymtab - startAfter after)) :=
        findSymbolFrom_defined hready (hready.cache c hcache) _ _ (by omega)
      obtain ⟨r, hr⟩ := hloop
      show Gives (match e'.cache with | none => _ | some c => _) _
      rw [hcache]
      show Gives (e'.findSymbolFrom _ _ _ _ >>= _) _
      rw [hr]
      exact Gives.ok ⟨hready, hbuffer⟩

end ElfInfo

/-- Whatever was looked up before. -/
theorem Looked.ready {e e' : ElfInfo} (h : Looked e e') (he : Ready e) :
    Ready e' ∧ e'.toBuffer = e.toBuffer := by
  induction h with
  | start => exact ⟨he, rfl⟩
  | symtab _ hcall ih =>
      obtain ⟨e₁, hok, hready, hbuffer⟩ := ElfInfo.symtab_gives ih.1
      obtain rfl := Except.ok.inj (hok.symm.trans hcall)
      exact ⟨hready, hbuffer.trans ih.2⟩
  | findSymbol _ hcall ih =>
      obtain ⟨r, hok, hready, hbuffer⟩ := ElfInfo.findSymbol_gives ih.1 _ _
      obtain rfl := Except.ok.inj (hok.symm.trans hcall)
      exact ⟨hready, hbuffer.trans ih.2⟩

/-- What `validate` accepts is ready. -/
theorem ready_accepted {b : Buffer} (h : Valid b) : Ready b.accepted :=
  ⟨h, rfl, rfl, fun _ hc => nomatch hc⟩

/-- **LOOKUPS** in a file that was accepted stay inside it: all entries of its
    tables are in the file, and so is the end of every name. -/
theorem lookups_inside {b : Buffer} {e e' : ElfInfo} (h : b.load.validate = .ok (.accepted e))
    (hlooked : Looked e e') :
    (∀ name, Defined (e'.findSection name))
      ∧ (∀ i, i < b.shnum → Defined (e'.sectionDisplayName i))
      ∧ Defined e'.firstOffset ∧ Defined e'.symtab
      ∧ (∀ name after, Defined (e'.findSymbol name after))
      ∧ (∀ i, i < b.shnum → sect e'.sht i + sizeofSection ≤ b.size
        ∧ Terminated b (b.shstrtab + b.val (shName e'.sht i)))
      ∧ ∀ c, e'.cache = some c → ∀ j, j < c.nsymtab →
        (stName c.symtab j).off + sizeofSymbol ≤ b.size
          ∧ Terminated b (c.symstrtab + b.val (stName c.symtab j)) := by
  obtain ⟨hvalid, rfl⟩ := Buffer.valid_of_accepted h
  obtain ⟨hready, rfl⟩ := hlooked.ready (ready_accepted hvalid)
  refine ⟨fun name => (ElfInfo.findSection_gives hready name).defined,
    fun i hi => ElfInfo.sectionDisplayName_defined hready hi, ElfInfo.firstOffset_defined hready,
    (ElfInfo.symtab_gives hready).defined,
    fun name after => (ElfInfo.findSymbol_gives hready name after).defined, ?_, ?_⟩
  · intro i hi
    rw [hready.sht]
    exact ⟨hready.valid.header.section_inside hi, hready.valid.section_terminated hi⟩
  · intro c hcache j hj
    obtain ⟨k, hk, hsym, htab, hcount, hstr⟩ := hready.cache c hcache
    rw [htab, hstr]
    exact hready.valid.symbol_terminated hk hsym (Nat.lt_of_lt_of_le hj hcount)

/-- A file with a symbol table of two symbols. -/
def twoSymbols : Buffer :=
  sample 456 (by decide) ([(eMagic, elfMagic), (ePhoff, 64), (eShoff, 120),
    (ePhentsize, sizeofProgram), (ePhnum, 1), (eShentsize, sizeofSection), (eShnum, 4),
    (eShstrndx, 3), (shName 120 1, 1), (shType 120 1, shtSymtab), (shOffset 120 1, 408),
    (shSize 120 1, 48), (shLink 120 1, 2), (shName 120 2, 9), (shType 120 2, shtStrtab),
    (shOffset 120 2, 403), (shSize 120 2, 3), (shName 120 3, 17), (shType 120 3, shtStrtab),
    (shOffset 120 3, 376), (shSize 120 3, 27), (stName 408 1, 1)]
    ++ text 376 [0, 46, 115, 121, 109, 116, 97, 98, 0, 46, 115, 116, 114, 116, 97, 98, 0,
      46, 115, 104, 115, 116, 114, 116, 97, 98, 0]
    ++ text 403 [0, 97, 0])

theorem lookups_inside_twoSymbols :
    ∃ e, twoSymbols.accepted.symtab = .ok e ∧ e.cache = some ⟨408, 2, 403⟩
      ∧ (∀ name, Defined (e.findSymbol name none))
      ∧ Terminated twoSymbols (403 + twoSymbols.val (stName 408 1)) := by
  have haccepts : twoSymbols.accepts = true := by decide +kernel
  have hvalidate := Buffer.validate_of_accepts haccepts
  have hcall : twoSymbols.accepted.symtab.map (·.cache) = .ok (some ⟨408, 2, 403⟩) := by
    decide +kernel
  obtain ⟨e, hsymtab, hcache⟩ : ∃ e, twoSymbols.accepted.symtab = .ok e
      ∧ e.cache = some ⟨408, 2, 403⟩ := by
    cases hsymtab : twoSymbols.accepted.symtab with
    | error s =>
        rw [hsymtab] at hcall
        cases hcall
    | ok e =>
        rw [hsymtab] at hcall
        exact ⟨e, rfl, Except.ok.inj hcall⟩
  obtain ⟨-, -, -, -, hfind, -, hsymbols⟩ := lookups_inside hvalidate (.symtab .start hsymtab)
  exact ⟨e, hsymtab, hcache, fun name => hfind name none, (hsymbols _ hcache 1 (by decide)).2⟩

end ElfFile
