import Cs61.SymtabRuns

/-! # The symbols that `rewrite_symtabref` fills in

    It fills in all records if and only if no symbol comes up that it misjudges,
    or that `nsymtab_` does not count (`rewrites_iff`), as long as no record changes
    what is read of a later symbol. -/

namespace ElfFile

open ByteFiles Checks LoopRules

variable {b : Buffer} {e e₀ : ElfInfo} {t : SymtabCache} {q : Request} {name : CString}
  {loadaddr m n j p : Nat}

/-! ## The records -/

/-- Symbols that are not to be filled in make no difference. -/
theorem filled_eq (hle : m ≤ n) (hno : ∀ j, m ≤ j → j < n → ¬ Good b t q.name j) :
    filled b t q loadaddr n = filled b t q loadaddr m := by
  induction n, hle using Nat.le_induction with
  | base => rfl
  | succ n hle ih =>
      rw [filled, if_neg (hno n hle (Nat.lt_succ_self n))]
      exact ih fun j hj hjn => hno j hj (Nat.lt_succ_of_lt hjn)

/-- How many there are. -/
theorem count_filled_eq (b : Buffer) (t : SymtabCache) (q : Request) (loadaddr m : Nat) :
    (filled b t q loadaddr m).count = (List.range m).countP (fun j => Good b t q.name j) := by
  induction m with
  | zero => rfl
  | succ m ih =>
      rw [List.range_succ, List.countP_append, List.countP_singleton, ← ih, filled]
      by_cases hgood : Good b t q.name m
      · rw [if_pos hgood, if_pos (decide_eq_true hgood)]
        rfl
      · rw [if_neg hgood, if_neg fun h => hgood (of_decide_eq_true h)]
        rfl

/-- Later entries find more references. -/
theorem count_filled_mono (hle : m ≤ n) :
    (filled b t q loadaddr m).count ≤ (filled b t q loadaddr n).count := by
  induction n, hle using Nat.le_induction with
  | base => exact Nat.le_refl _
  | succ n hle ih =>
      refine Nat.le_trans ih ?_
      rw [filled]
      split_ifs with hgood
      · exact Nat.le_succ _
      · exact Nat.le_refl _

/-- A reference is counted. -/
theorem count_filled_lt (hle : m ≤ j) (hj : j < n) (hgood : Good b t q.name j) :
    (filled b t q loadaddr m).count < (filled b t q loadaddr n).count := by
  have hnext : (filled b t q loadaddr (j + 1)).count = (filled b t q loadaddr j).count + 1 := by
    rw [filled, if_pos hgood]
    rfl
  have hbefore := @count_filled_mono b t q loadaddr m j hle
  have hafter := @count_filled_mono b t q loadaddr (j + 1) n hj
  omega

/-- A byte of the section of a symbol, in the file. -/
def InSection (b : Buffer) (t : SymtabCache) (j p : Nat) : Prop :=
  b.val (shOffset b.shoff (sectionOf b t j)) ≤ p
    ∧ p < b.val (shOffset b.shoff (sectionOf b t j)) + bytesOf b t j

/-- Nothing outside the sections is touched. -/
theorem filled_apart (h : Prepared b t e) (hp : ∀ j, Good b t q.name j → ¬ InSection b t j p) :
    (filled b t q loadaddr m).data p = b.data p := by
  induction m with
  | zero => rfl
  | succ m ih =>
      rw [filled]
      split_ifs with hgood
      · obtain ⟨hupto, -⟩ := place_inside h hgood.1.2.2 hgood.2
        have hfrom : b.val (shOffset b.shoff (sectionOf b t m)) ≤ place b t m :=
          Nat.le_add_right _ _
        have hout := hp m hgood
        rw [Filled.add_apart, ih]
        by_contra hmeet
        exact hout ⟨by omega, by omega⟩
      · exact ih

/-- A reference that has just been written is there. -/
theorem Filled.add_holds {x : Filled} {off : Nat}
    (h : q.record (x.addrAt off) n < 256 ^ sizeofSymtabref) :
    num (x.add q n off).data off sizeofSymtabref = q.record (x.add q n off).loadaddr n :=
  num_put h

/-- The other references stay. -/
theorem Filled.num_add_apart {x : Filled} {off : Nat}
    (h : p + sizeofSymtabref ≤ off ∨ off + sizeofSymtabref ≤ p) :
    num (x.add q n off).data p sizeofSymtabref = num x.data p sizeofSymtabref :=
  num_put_apart _ h

/-- A record that no later one lies over is there at the end. -/
theorem filled_holds (hgood : Good b t q.name j) (hj : j < m)
    (hfits : q.record (filled b t q loadaddr (j + 1)).loadaddr t.known.nsymtab
      < 256 ^ sizeofSymtabref)
    (hapart : ∀ i, j < i → i < m → Good b t q.name i →
      place b t j + sizeofSymtabref ≤ place b t i
        ∨ place b t i + sizeofSymtabref ≤ place b t j) :
    num (filled b t q loadaddr m).data (place b t j) sizeofSymtabref
      = q.record (filled b t q loadaddr (j + 1)).loadaddr t.known.nsymtab := by
  induction m, hj using Nat.le_induction with
  | base =>
      rw [filled, if_pos hgood] at hfits ⊢
      exact Filled.add_holds hfits
  | succ m hle ih =>
      have hstays := ih fun i hi him => hapart i hi (Nat.lt_succ_of_lt him)
      have hlast : num (filled b t q loadaddr (m + 1)).data (place b t j) sizeofSymtabref
          = num (filled b t q loadaddr m).data (place b t j) sizeofSymtabref := by
        rw [filled]
        split_ifs with hnext
        · exact Filled.num_add_apart (hapart m hle (Nat.lt_succ_self m) hnext)
        · rfl
      rw [hlast, hstays]

/-- Among symbols that are not all good there is a first one that is not. -/
theorem firstBad_of_not (h : ¬ ∀ j, Object b t name j → Inside b t j) :
    ∃ j, FirstBad b t name j := by
  classical
  have hbad : ∃ j, Object b t name j ∧ ¬ Inside b t j := by
    by_contra hno
    exact h fun j hobject => by_contra fun hin => hno ⟨j, hobject, hin⟩
  obtain ⟨hobject, hin⟩ := Nat.find_spec hbad
  refine ⟨Nat.find hbad, hobject, hin, fun i hi hobject' => ?_⟩
  by_contra hout
  exact Nat.find_min hbad hi ⟨hobject', hout⟩

/-! ## The function -/

/-- What `rewrite_symtabref` is for: all records are filled in and counted, and
    nothing else is touched; a symbol that has no record in its section, and no
    other, ends the program. -/
structure Rewrites (b : Buffer) (e : ElfInfo) (q : Request) (loadaddr : Nat) : Prop where
  fills : (∀ j, Object b b.symbols q.name j → Inside b b.symbols j) →
    ∃ e', Returns (e.rewriteSymtabref q loadaddr)
        (.ok ((List.range b.symbols.nsymtab).countP (fun j => Good b b.symbols q.name j),
          (filled b b.symbols q loadaddr b.symbols.nsymtab).loadaddr, e'))
      ∧ e'.data = (filled b b.symbols q loadaddr b.symbols.nsymtab).data ∧ e'.size = b.size
      ∧ ∀ p, e'.data p ≠ b.data p → ∃ j, Good b b.symbols q.name j ∧ InSection b b.symbols j p
  exits : ∀ j, FirstBad b b.symbols q.name j →
    ∃ halt, Returns (e.rewriteSymtabref q loadaddr) (.error halt) ∧ halt.about = some j

/-- Every symbol that comes up is counted and judged as it should be. -/
def Judged (b : Buffer) (name : CString) : Prop :=
  ∀ j, Object b b.symbols name j → Due b b.symbols name j →
    j < b.symbols.known.nsymtab ∧ ¬ Misjudged b b.symbols j

/-- A run starts with the search of the whole table, if there is one. -/
theorem rewriteSymtabref_cases (hv : Valid b) (hlooked : Looked b.accepted e) (q : Request)
    (loadaddr : Nat) :
    (b.symbols = ⟨0, 0, 0⟩
        ∧ Returns (e.rewriteSymtabref q loadaddr) (.ok (0, loadaddr, b.accepted)))
      ∨ (Prepared b b.symbols b.withTable ∧ e.rewriteSymtabref q loadaddr
        = rest b.withTable q b.symbols.known (filled b b.symbols q loadaddr 0) 0) := by
  have hstart : ∀ e' : ElfInfo, e'.symtab = .ok b.withTable → e'.rewriteSymtabref q loadaddr
      = rest b.withTable q b.symbols.known (filled b b.symbols q loadaddr 0) 0 := by
    intro e' hsymtab
    funext budget
    have hsame : b.withTable.withFilled (filled b b.symbols q loadaddr 0) = b.withTable := rfl
    rw [ElfInfo.rewriteSymtabref, findSymbol_table hsymtab rfl, rest, hsame,
      show ElfInfo.startAfter none = 0 from rfl]
    cases hfrom : b.withTable.findSymbolFrom b.symbols.known q.name 0
        (b.symbols.known.nsymtab - 0) <;> rfl
  rcases looked_cases hv hlooked with rfl | ⟨rfl, hprepared⟩
  · rcases symtab_cases hv with ⟨hsame, hsymbols⟩ | ⟨htable, hprepared⟩
    · refine Or.inl ⟨hsymbols, ?_⟩
      have hnone : b.accepted.findSymbol q.name none = .ok (none, b.accepted) := by
        rw [ElfInfo.findSymbol, hsame]
        rfl
      have hloop : b.accepted.rewriteSymtabref q loadaddr
          = fun budget => run (Rewrite.body q) budget ⟨b.accepted, loadaddr, 0, none⟩ := by
        funext budget
        rw [ElfInfo.rewriteSymtabref, hnone]
      rw [hloop]
      exact returns_leave rfl
    · exact Or.inr ⟨hprepared, hstart _ htable⟩
  · exact Or.inr ⟨hprepared, hstart _ (symtab_cached rfl)⟩

/-- A symbol that was accepted is not what the program exits because of. -/
theorem about_accepted {x : Filled} {halt : Halt} (h : Prepared b t e)
    (hagrees : Agrees b t x.data j) (hj : j < t.known.nsymtab) (hobject : Object b t q.name j)
    (haccepted : Accepted b t j) (hrun : Returns (rest e q t.known x j) (.error halt)) :
    halt.about ≠ some j := by
  intro habout
  have hcache : (x.state e (some j)).file.cache = some t.known := h.cache
  have hcount : t.known.nsymtab < 2 ^ 32 := Nat.mod_lt _ (by decide)
  rw [rest_named h hagrees hj hobject.2.1] at hrun
  obtain ⟨budget, hbudget⟩ := hrun
  have hrun : run (Rewrite.body q) (budget + 1) (x.state e (some j)) = some (.error halt) :=
    hbudget (budget + 1) (Nat.le_succ _)
  rw [run, Rewrite.body] at hrun
  cases hpass : (x.state e (some j)).pass q with
  | error halt' =>
      rw [hpass] at hrun
      obtain rfl := Except.error.inj (Option.some.inj hrun)
      -- an exit in this pass blames no symbol at all
      have hblames : Blames (j + 1) ((x.state e (some j)).pass q) := by
        show Blames (j + 1) ((x.state e (some j)).visit q j >>= _)
        rw [visit_accepted h hagrees hobject.1 hobject.2.2 haccepted]
        exact Blames.bind (Blames.orHalt _) fun _ =>
          Blames.bind (Blames.orHalt _) fun _ => Blames.ok _
      rcases hblames halt' hpass with hnone | hnext
      · cases hnone.symm.trans habout
      · exact Nat.succ_ne_self j (Option.some.inj (hnext.symm.trans habout))
  | ok turn =>
      rw [hpass] at hrun
      cases turn with
      | leave r => cases hrun
      | again s' =>
          obtain ⟨hcache', i, hi, hnext⟩ := pass_again hcache hpass
          obtain ⟨k, hk, hle⟩ := about_later hcache' hcount (fun k hk => (hnext k hk).2) hrun habout
          obtain rfl := Option.some.inj hi
          have hstart : ElfInfo.startAfter (some j) = j + 1 := Nat.mod_eq_of_lt (by omega)
          have hlater := (hnext k hk).1
          omega

section Judged

variable (hp : Prepared b b.symbols b.withTable) (hkept : Kept b b.symbols q loadaddr)
  (hstart : e.rewriteSymtabref q loadaddr
    = rest b.withTable q b.symbols.known (filled b b.symbols q loadaddr 0) 0)

include hp hkept hstart

/-- A run behind symbols that were judged as they should be. -/
theorem rewriteSymtabref_reaches {r : Except Halt (Nat × Nat × ElfInfo)}
    (hm : m ≤ b.symbols.known.nsymtab) (hdue : Due b b.symbols q.name m)
    (hjudged : ∀ j, j < m → Object b b.symbols q.name j → Accepted b b.symbols j) :
    Returns (e.rewriteSymtabref q loadaddr) r
      ↔ Returns (rest b.withTable q b.symbols.known (filled b b.symbols q loadaddr m) m) r := by
  rw [hstart]
  exact reaches hp hkept hm hdue hjudged

/-- All symbols that come up are judged as they should be. -/
theorem rewrites_of_judged (hjudged : Judged b q.name) : Rewrites b e q loadaddr := by
  have haccepted : ∀ j, Object b b.symbols q.name j → Due b b.symbols q.name j →
      (Accepted b b.symbols j ↔ Inside b b.symbols j) := by
    intro j hobject hdue
    exact not_not.mp (mt (misjudged_iff b b.symbols j).mpr (hjudged j hobject hdue).2)
  constructor
  · intro hall
    have hdue : ∀ m, Due b b.symbols q.name m := fun m i _ => hall i
    have hsame : filled b b.symbols q loadaddr b.symbols.nsymtab
        = filled b b.symbols q loadaddr b.symbols.known.nsymtab := by
      refine filled_eq (Nat.mod_le _ _) fun j hj _ hgood => ?_
      exact Nat.not_lt.mpr hj (hjudged j hgood.1 (hdue j)).1
    refine ⟨b.withTable.withFilled (filled b b.symbols q loadaddr b.symbols.nsymtab), ?_, rfl, rfl,
      ?_⟩
    · rw [← count_filled_eq b b.symbols q loadaddr, hsame]
      refine (rewriteSymtabref_reaches hp hkept hstart (Nat.le_refl _) (hdue _)
        fun j _ hobject => ?_).mpr (rest_end (Nat.le_refl _))
      exact (haccepted j hobject (hdue j)).mpr (hall j hobject)
    · intro p hchanged
      by_contra hno
      exact hchanged (filled_apart hp fun j hgood hin => hno ⟨j, hgood, hin⟩)
  · rintro j ⟨hobject, hout, hdue⟩
    obtain ⟨hj, -⟩ := hjudged j hobject hdue
    have hagrees : Agrees b b.symbols (filled b b.symbols q loadaddr j).data j :=
      hkept j hobject.1 hdue
    obtain ⟨halt, hvisit, habout⟩ := visit_refused (q := q) hp hagrees hobject.1 hobject.2.2
      (fun hyes => hout ((haccepted j hobject hdue).mp hyes)) (some j)
    refine ⟨halt, ?_, habout⟩
    refine (rewriteSymtabref_reaches hp hkept hstart (Nat.le_of_lt hj) hdue
      fun i hi hobject' => ?_).mpr (rest_halt hp hagrees hj hobject.2.1 hvisit)
    exact (haccepted i hobject' (hdue.mono (Nat.le_of_lt hi))).mpr (hdue i hi hobject')

section FirstWrong

variable (hobject : Object b b.symbols q.name j) (hdue : Due b b.symbols q.name j)
  (hbefore : ∀ i, i < j → Object b b.symbols q.name i → Accepted b b.symbols i)

include hobject hdue hbefore

/-- A symbol that is misjudged ends the program, or does not and should. -/
theorem not_rewrites_of_misjudged (hj : j < b.symbols.known.nsymtab)
    (hmis : Misjudged b b.symbols j) : ¬ Rewrites b e q loadaddr := by
  intro hrewrites
  have hagrees : Agrees b b.symbols (filled b b.symbols q loadaddr j).data j :=
    hkept j hobject.1 hdue
  have hiff := (misjudged_iff b b.symbols j).mp hmis
  by_cases hin : Inside b b.symbols j
  · have hrefused : ¬ Accepted b b.symbols j := fun hyes => hiff (iff_of_true hyes hin)
    obtain ⟨halt, hvisit, habout⟩ := visit_refused (q := q) hp hagrees hobject.1 hobject.2.2
      hrefused (some j)
    have hexit := (rewriteSymtabref_reaches hp hkept hstart (Nat.le_of_lt hj) hdue hbefore).mpr
      (rest_halt hp hagrees hj hobject.2.1 hvisit)
    by_cases hall : ∀ j, Object b b.symbols q.name j → Inside b b.symbols j
    · obtain ⟨e', hfills, -⟩ := hrewrites.fills hall
      cases hfills.unique hexit
    · obtain ⟨k, hbad⟩ := firstBad_of_not hall
      obtain ⟨halt', hexit', habout'⟩ := hrewrites.exits k hbad
      obtain rfl := Except.error.inj (hexit'.unique hexit)
      obtain rfl := Option.some.inj (habout'.symm.trans habout)
      exact hbad.2.1 hin
  · have haccepted : Accepted b b.symbols j := by_contra fun hno => hiff (iff_of_false hno hin)
    obtain ⟨halt, hexit, habout⟩ := hrewrites.exits j ⟨hobject, hin, hdue⟩
    have hrest := (rewriteSymtabref_reaches hp hkept hstart (Nat.le_of_lt hj) hdue hbefore).mp hexit
    exact about_accepted hp hagrees hj hobject haccepted hrest habout

/-- A symbol that is not counted is left out. -/
theorem not_rewrites_of_uncounted (hj : b.symbols.known.nsymtab ≤ j) :
    ¬ Rewrites b e q loadaddr := by
  intro hrewrites
  have hends := (rewriteSymtabref_reaches hp hkept hstart (Nat.le_refl _) (hdue.mono hj)
    fun i hi => hbefore i (Nat.lt_of_lt_of_le hi hj)).mpr (rest_end (Nat.le_refl _))
  by_cases hall : ∀ j, Object b b.symbols q.name j → Inside b b.symbols j
  · obtain ⟨e', hfills, -⟩ := hrewrites.fills hall
    have hsame := Except.ok.inj (hfills.unique hends)
    rw [← count_filled_eq b b.symbols q loadaddr] at hsame
    have hmore : (filled b b.symbols q loadaddr b.symbols.known.nsymtab).count
        < (filled b b.symbols q loadaddr b.symbols.nsymtab).count :=
      count_filled_lt hj hobject.1 ⟨hobject, hall j hobject⟩
    exact Nat.ne_of_gt hmore (Prod.mk.inj hsame).1
  · obtain ⟨k, hbad⟩ := firstBad_of_not hall
    obtain ⟨halt, hexit, -⟩ := hrewrites.exits k hbad
    cases hexit.unique hends

end FirstWrong

/-- The first symbol that is wrong shows. -/
theorem judged_of_rewrites (hrewrites : Rewrites b e q loadaddr) : Judged b q.name := by
  intro j
  induction j using Nat.strongRecOn with
  | _ j ih =>
      intro hobject hdue
      have hbefore : ∀ i, i < j → Object b b.symbols q.name i → Accepted b b.symbols i := by
        intro i hi hobject'
        have hright := (ih i hi hobject' (hdue.mono (Nat.le_of_lt hi))).2
        exact (not_not.mp (mt (misjudged_iff b b.symbols i).mpr hright)).mpr (hdue i hi hobject')
      have hj : j < b.symbols.known.nsymtab := by
        by_contra hj
        exact not_rewrites_of_uncounted hp hkept hstart hobject hdue hbefore
          (Nat.le_of_not_lt hj) hrewrites
      exact ⟨hj, fun hmis => not_rewrites_of_misjudged hp hkept hstart hobject hdue hbefore hj hmis
        hrewrites⟩

end Judged

/-- **`rewrite_symtabref`** does what it is for if and only if every symbol that
    comes up is counted and judged as it should be. -/
theorem rewrites_iff (h : b.load.validate = .ok (.accepted e₀)) (hlooked : Looked e₀ e)
    (hkept : Kept b b.symbols q loadaddr) : Rewrites b e q loadaddr ↔ Judged b q.name := by
  obtain ⟨hv, rfl⟩ := Buffer.valid_of_accepted h
  rcases rewriteSymtabref_cases hv hlooked q loadaddr with ⟨hnone, hreturns⟩ | ⟨hp, hstart⟩
  · have hempty : ∀ j, ¬ Object b b.symbols q.name j := by
      intro j hobject
      rw [hnone] at hobject
      exact Nat.not_lt_zero j hobject.1
    refine iff_of_true ⟨fun _ => ⟨b.accepted, ?_, ?_, rfl, fun p hp => absurd rfl hp⟩,
      fun j hbad => absurd hbad.1 (hempty j)⟩ fun j hobject => absurd hobject (hempty j)
    · rw [hnone]
      exact hreturns
    · rw [hnone]
      rfl
  · exact ⟨judged_of_rewrites hp hkept hstart, rewrites_of_judged hp hkept hstart⟩

/-- A file with a symbol `a` that stands at the start of a section of `bytes` bytes. -/
def oneReference (bytes : Nat) (h : bytes ≤ 64) : Buffer :=
  sample (524 + bytes) (by omega) ([(eMagic, elfMagic), (ePhoff, 64), (eShoff, 120),
    (ePhentsize, sizeofProgram), (ePhnum, 1), (eShentsize, sizeofSection), (eShnum, 5),
    (eShstrndx, 3), (shName 120 1, 1), (shType 120 1, shtSymtab), (shOffset 120 1, 476),
    (shSize 120 1, 48), (shLink 120 1, 2), (shName 120 2, 9), (shType 120 2, shtStrtab),
    (shOffset 120 2, 473), (shSize 120 2, 3), (shName 120 3, 17), (shType 120 3, shtStrtab),
    (shOffset 120 3, 440), (shSize 120 3, 33), (shName 120 4, 27), (shType 120 4, shtProgbits),
    (shAddr 120 4, 0x2000), (shOffset 120 4, 524), (shSize 120 4, bytes), (stName 476 1, 1),
    (stInfo 476 1, sttObject), (stShndx 476 1, 4), (stValue 476 1, 0x2000),
    (stSize 476 1, sizeofSymtabref)]
    ++ text 440 [0, 46, 115, 121, 109, 116, 97, 98, 0, 46, 115, 116, 114, 116, 97, 98, 0,
      46, 115, 104, 115, 116, 114, 116, 97, 98, 0, 46, 100, 97, 116, 97, 0]
    ++ text 473 [0, 97, 0])

/-- The request for the record of the symbol `a`. -/
def requestA : Request := ⟨⟨[97], by simp⟩, 0x30, 0x40⟩

/-- The symbols of the example. -/
theorem oneReference_symbols (bytes : Nat) (h : bytes ≤ 64)
    (hcache : (oneReference bytes h).symbols = ⟨476, 2, 473⟩)
    (hnull : ¬ Object (oneReference bytes h) ⟨476, 2, 473⟩ requestA.name 0) :
    ∀ j, Object (oneReference bytes h) (oneReference bytes h).symbols requestA.name j → j = 1 := by
  intro j hobject
  rw [hcache] at hobject
  have hj : j < 2 := hobject.1
  have hne : j ≠ 0 := fun hzero => hnull (hzero ▸ hobject)
  omega

/-- The theorem's condition for one reference. -/
theorem rewrites_iff_oneReference :
    Rewrites (oneReference 64 (by decide)) (oneReference 64 (by decide)).accepted requestA 0x40000
      ∧ (oneReference 64 (by decide)).symbols = ⟨476, 2, 473⟩
      ∧ Good (oneReference 64 (by decide)) ⟨476, 2, 473⟩ requestA.name 1 := by
  have haccepts : (oneReference 64 (by decide)).accepts = true := by decide +kernel
  have hsymbols : (oneReference 64 (by decide)).symbols = ⟨476, 2, 473⟩ := by decide +kernel
  have hgood : Good (oneReference 64 (by decide)) ⟨476, 2, 473⟩ requestA.name 1 := by
    decide +kernel
  have honly := oneReference_symbols 64 (by decide) hsymbols (by decide +kernel)
  refine ⟨(rewrites_iff (Buffer.validate_of_accepts haccepts) .start
    (kept_of_untouched ?_)).mpr ?_, hsymbols, hgood⟩
  · intro i j hij hj hgood'
    have hi := honly i hgood'.1
    rw [hsymbols] at hj
    exact absurd hj (by show ¬ j < 2; omega)
  · intro j hobject _
    obtain rfl := honly j hobject
    rw [hsymbols]
    decide +kernel

/-- What a call gives with one budget is what it returns. -/
theorem rewriteSymtabref_returns {r : Except Halt (Nat × Nat × ElfInfo)}
    (h : e.rewriteSymtabref q loadaddr n = some r) :
    Returns (e.rewriteSymtabref q loadaddr) r := by
  refine ⟨n, fun budget hbudget => ?_⟩
  rw [ElfInfo.rewriteSymtabref] at h ⊢
  cases hfind : e.findSymbol q.name none with
  | error s =>
      rw [hfind] at h
      exact h
  | ok found =>
      rw [hfind] at h
      exact run_mono h hbudget

/-- The 32 bytes of this symbol are its whole section, and the program exits. -/
theorem lastPlace_refused : ∃ b : Buffer, b.load.validate = .ok (.accepted b.accepted)
    ∧ Untouched b b.symbols requestA.name ∧ Good b b.symbols requestA.name 1
    ∧ (∃ halt, Returns (b.accepted.rewriteSymtabref requestA 0x40000) (.error halt)
      ∧ halt.about = some 1)
    ∧ ¬ Rewrites b b.accepted requestA 0x40000 := by
  have haccepts : (oneReference 32 (by decide)).accepts = true := by decide +kernel
  have hsymbols : (oneReference 32 (by decide)).symbols = ⟨476, 2, 473⟩ := by decide +kernel
  have hgood : Good (oneReference 32 (by decide)) ⟨476, 2, 473⟩ requestA.name 1 := by
    decide +kernel
  have honly := oneReference_symbols 32 (by decide) hsymbols (by decide +kernel)
  have hrun : ((oneReference 32 (by decide)).accepted.rewriteSymtabref requestA 0x40000 1).bind
      (fun r => match r with | .error halt => halt.about | .ok _ => none) = some 1 := by
    decide +kernel
  obtain ⟨r, hr, habout⟩ := Option.bind_eq_some_iff.mp hrun
  have hreturns := rewriteSymtabref_returns hr
  cases r with
  | ok r => cases habout
  | error halt =>
      refine ⟨oneReference 32 (by decide), Buffer.validate_of_accepts haccepts, ?_,
        hsymbols ▸ hgood, ⟨halt, hreturns, habout⟩, fun hrewrites => ?_⟩
      · intro i j hij hj hgood'
        have hi := honly i hgood'.1
        rw [hsymbols] at hj
        exact absurd hj (by show ¬ j < 2; omega)
      · obtain ⟨e', hfills, -⟩ := hrewrites.fills fun j hobject => by
          obtain rfl := honly j hobject
          rw [hsymbols]
          exact hgood.2
        cases hfills.unique hreturns

/-- The section of these two symbols starts where the entry of the second one is. -/
def overSymbols : Buffer :=
  sample 652 (by decide) ([(eMagic, elfMagic), (ePhoff, 64), (eShoff, 120),
    (ePhentsize, sizeofProgram), (ePhnum, 1), (eShentsize, sizeofSection), (eShnum, 5),
    (eShstrndx, 3), (shName 120 1, 1), (shType 120 1, shtSymtab), (shOffset 120 1, 476),
    (shSize 120 1, 72), (shLink 120 1, 2), (shName 120 2, 9), (shType 120 2, shtStrtab),
    (shOffset 120 2, 473), (shSize 120 2, 3), (shName 120 3, 17), (shType 120 3, shtStrtab),
    (shOffset 120 3, 440), (shSize 120 3, 33), (shName 120 4, 27), (shType 120 4, shtProgbits),
    (shAddr 120 4, 0x2000), (shOffset 120 4, 524), (shSize 120 4, 128), (stName 476 1, 1),
    (stInfo 476 1, sttObject), (stShndx 476 1, 4), (stValue 476 1, 0x2000),
    (stSize 476 1, sizeofSymtabref), (stName 476 2, 1), (stInfo 476 2, sttObject),
    (stShndx 476 2, 4), (stValue 476 2, 0x2040), (stSize 476 2, sizeofSymtabref)]
    ++ text 440 [0, 46, 115, 121, 109, 116, 97, 98, 0, 46, 115, 116, 114, 116, 97, 98, 0,
      46, 115, 104, 115, 116, 114, 116, 97, 98, 0, 46, 100, 97, 116, 97, 0]
    ++ text 473 [0, 97, 0])

/-- The first record is filled in over the entry of the second symbol, whose name
    is then looked for outside the file. -/
theorem overSymbols_not_kept : overSymbols.load.validate = .ok (.accepted overSymbols.accepted)
    ∧ Judged overSymbols requestA.name
    ∧ ¬ Rewrites overSymbols overSymbols.accepted requestA 0x40000 := by
  have haccepts : overSymbols.accepts = true := by decide +kernel
  have hsymbols : overSymbols.symbols = ⟨476, 3, 473⟩ := by decide +kernel
  have hall : ∀ j, j < 3 → Object overSymbols ⟨476, 3, 473⟩ requestA.name j →
      Inside overSymbols ⟨476, 3, 473⟩ j ∧ ¬ Misjudged overSymbols ⟨476, 3, 473⟩ j := by
    decide +kernel
  have hstops : ((overSymbols.accepted.rewriteSymtabref requestA 0x40000 1).bind
      fun r => match r with | .error _ => some () | .ok _ => none) = some () := by
    decide +kernel
  obtain ⟨r, hr, hstop⟩ := Option.bind_eq_some_iff.mp hstops
  have hreturns := rewriteSymtabref_returns hr
  refine ⟨Buffer.validate_of_accepts haccepts, fun j hobject _ => ?_, fun hrewrites => ?_⟩
  · rw [hsymbols] at hobject ⊢
    exact ⟨hobject.1, (hall j hobject.1 hobject).2⟩
  · obtain ⟨e', hfills, -⟩ := hrewrites.fills fun j hobject => by
      rw [hsymbols] at hobject ⊢
      exact (hall j hobject.1 hobject).1
    cases hreturns.unique hfills
    cases hstop

end ElfFile
