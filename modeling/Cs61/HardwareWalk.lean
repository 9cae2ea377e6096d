import Cs61.VmQueries

/-! # The processor's walk — `vmiter` agrees with the hardware

    `hwWalk` is the four-level translation of the x86-64 manuals, written
    without a look at `vmiter`: one level after the other, with the large pages
    of the two middle levels.  A freshly constructed `vmiter` answers exactly
    what this walk finds. -/

namespace HardwareWalk

open PageTable PostOrder VmIter WordMasks VmWalk VmQueries
open Vmiter (lbitsMask)

variable {mem : Mem} {root : Word}

/-! ## The hardware walk -/

/-- What the processor finds for an address: the physical address, and the
    intersection of the P, W and U bits of all levels. -/
structure Translation where
  pa : Word
  flags : Word
deriving DecidableEq, Repr

/-- An address is canonical when it is the sign extension of its low 48 bits. -/
def hwCanonical (va : Word) : Bool := (va.setWidth 48).signExtend 64 == va

/-- The entry for `va` in the table at `base` whose entries map `2 ^ k` bytes. -/
def hwEntry (mem : Mem) (base va : Word) (k : Nat) : Word :=
  mem (base + 8#64 * (va.extractLsb' k 9).setWidth 64)

/-- Bits 51 to `k` of an entry, followed by the low `k` bits of `va`. -/
def hwAddr (e va : Word) (k : Nat) : Word :=
  BitVec.ofNat 64 (e.toNat % 2 ^ 52 / 2 ^ k * 2 ^ k + va.toNat % 2 ^ k)

/-- Bit 0 of an entry. -/
def hwPresent (e : Word) : Bool := e.getLsbD 0
/-- Bit 7 of an entry: it maps a large page. -/
def hwLarge (e : Word) : Bool := e.getLsbD 7

/-- The last level, where entries map 4 KiB pages. -/
def hwPte (mem : Mem) (va base flags : Word) : Option Translation :=
  let e := hwEntry mem base va 12
  if hwPresent e = true then some { pa := hwAddr e va 12, flags := flags &&& e } else none

/-- The page-directory level, with 2 MiB pages. -/
def hwPde (mem : Mem) (va base flags : Word) : Option Translation :=
  let e := hwEntry mem base va 21
  if hwPresent e = true then
    if hwLarge e = true then some { pa := hwAddr e va 21, flags := flags &&& e }
    else hwPte mem va (hwAddr e 0#64 12) (flags &&& e)
  else none

/-- The page-directory-pointer level, with 1 GiB pages. -/
def hwPdpte (mem : Mem) (va base flags : Word) : Option Translation :=
  let e := hwEntry mem base va 30
  if hwPresent e = true then
    if hwLarge e = true then some { pa := hwAddr e va 30, flags := flags &&& e }
    else hwPde mem va (hwAddr e 0#64 12) (flags &&& e)
  else none

/-- The translation of `va` under the level-4 page at `pml4`. -/
def hwWalk (mem : Mem) (pml4 va : Word) : Option Translation :=
  if hwCanonical va = true then
    let e := hwEntry mem pml4 va 39
    if hwPresent e = true then hwPdpte mem va (hwAddr e 0#64 12) (ptePWU &&& e) else none
  else none

/-- Bit 7 is reserved in the entries of the root page. -/
def NoRootPS (mem : Mem) (root : Word) : Prop :=
  ∀ i, i < 512 → (mem (entryPtr root (BitVec.ofNat 64 i))).getLsbD 7 = false

/-- Large-page frames are naturally aligned, apart from the PAT bit. -/
def LargeAligned (mem : Mem) (root : Word) : Prop :=
  ∀ p t i, IsPath 512 2 p → 1 ≤ p.length → table mem root p = some t → i < 512 →
    (mem (entryPtr t (BitVec.ofNat 64 i))).getLsbD 0 = true →
    (mem (entryPtr t (BitVec.ofNat 64 i))).getLsbD 7 = true →
    (mem (entryPtr t (BitVec.ofNat 64 i)) &&& ptePAMask &&& ~~~(0x1000#64)).toNat
      % 2 ^ lbitsAt p.length = 0

/-! ## The two readings of an address -/

/-- Both tests for canonical addresses agree. -/
theorem hwCanonical_eq (va : Word) : hwCanonical va = vaIsCanonical va := by
  refine Bool.eq_iff_iff.mpr ?_
  rw [vaIsCanonical_iff, hwCanonical, beq_iff_eq]
  have hlt := va.isLt
  rw [← BitVec.toNat_inj, BitVec.toNat_signExtend, BitVec.msb_eq_decide, BitVec.toNat_setWidth,
    BitVec.toNat_setWidth]
  by_cases hmsb : 2 ^ (48 - 1) ≤ va.toNat % 2 ^ 48
  · rw [if_pos (decide_eq_true hmsb)]
    omega
  · rw [if_neg (by rw [decide_eq_true_iff]; exact hmsb)]
    omega

/-- Both find the same entry. -/
theorem hwEntry_eq (base va : Word) (k : Nat) :
    hwEntry mem base va k = mem (entryPtr base (BitVec.ofNat 64 (idxAt va k))) := by
  have hidx : (va.extractLsb' k 9).setWidth 64 = BitVec.ofNat 64 (idxAt va k) := by
    refine BitVec.eq_of_toNat_eq ?_
    rw [BitVec.toNat_setWidth, BitVec.extractLsb'_toNat, BitVec.toNat_ofNat,
      Nat.shiftRight_eq_div_pow, idxAt]
  rw [hwEntry, entryPtr, hidx]

/-- The address in an entry for a table. -/
theorem hwAddr_table (e : Word) : hwAddr e 0#64 12 = e &&& ptePAMask := by
  refine BitVec.eq_of_toNat_eq ?_
  rw [toNat_and_paMask, hwAddr, BitVec.toNat_ofNat]
  have hlt : e.toNat % 2 ^ 52 < 2 ^ 52 := Nat.mod_lt _ (Nat.two_pow_pos 52)
  rw [show (0#64).toNat = 0 from rfl]
  omega

/-- The address of a small page. -/
theorem hwAddr_small (e va : Word) :
    frame e 12 + (va &&& lbitsMask 12) = hwAddr e va 12 := by
  refine BitVec.eq_of_toNat_eq ?_
  rw [BitVec.toNat_add, frame_small, toNat_and_lbitsMask va (by omega), hwAddr,
    BitVec.toNat_ofNat]
  omega

/-- The address of a large page, when its frame is aligned. -/
theorem hwAddr_large (e va : Word) {k : Nat} (h13 : 13 ≤ k) (h52 : k ≤ 39)
    (hal : (e &&& ptePAMask &&& ~~~(0x1000#64)).toNat % 2 ^ k = 0) :
    frame e k + (va &&& lbitsMask k) = hwAddr e va k := by
  have hgt : pageOffBits < k := by rw [pageOffBits]; omega
  have hf := frame_large e hgt
  have hframe : (frame e k).toNat % 2 ^ k = 0 := by
    rw [frame, if_pos hgt]
    exact hal
  have hquot : e.toNat % 2 ^ 52 / 2 ^ k * 2 ^ k = (frame e k).toNat := by
    have hdiv : (frame e k).toNat / 2 ^ k = e.toNat % 2 ^ 52 / 2 ^ k := by
      obtain ⟨j, rfl⟩ : ∃ j, k = 13 + j := ⟨k - 13, by omega⟩
      rw [hf, Nat.pow_add, ← Nat.div_div_eq_div_mul, Nat.mul_div_cancel_left _ (by omega),
        ← Nat.div_div_eq_div_mul]
    rw [← hdiv]
    exact Nat.div_mul_cancel (Nat.dvd_of_mod_eq_zero hframe)
  refine BitVec.eq_of_toNat_eq ?_
  rw [BitVec.toNat_add, toNat_and_lbitsMask va (by omega), hwAddr, BitVec.toNat_ofNat, hquot]

/-! ## Level by level -/

/-- The entry for `va` at depth `d` of its path. -/
def levelEntry (mem : Mem) (root va : Word) (d : Nat) : Word :=
  entryAt mem root (vaPath va d) (idxAt va (lbitsAt d))

/-- The entry on the iterator's path. -/
theorem hwEntry_level {va t : Word} {d k : Nat} (h : table mem root (vaPath va d) = some t)
    (hk : k = lbitsAt d) : hwEntry mem t va k = levelEntry mem root va d := by
  rw [hwEntry_eq, levelEntry, entryAt_of h, hk]

/-- A table on the path of `va` was found by an entry the hardware follows. -/
theorem table_above {va t : Word} {d : Nat} (h : table mem root (vaPath va (d + 1)) = some t) :
    ∃ s, table mem root (vaPath va d) = some s
      ∧ hwPresent (levelEntry mem root va d) = true
      ∧ hwLarge (levelEntry mem root va d) = false
      ∧ hwAddr (levelEntry mem root va d) 0#64 12 = t := by
  rw [vaPath_succ] at h
  obtain ⟨s, hs, hc⟩ := node_tail (child mem) h
  obtain ⟨htable, haddr⟩ := pointee_eq_some.mp hc
  rw [← entryAt_of hs] at htable haddr
  obtain ⟨hp, hl⟩ := (isTable_iff _).mp htable
  exact ⟨s, hs, hp, hl, (hwAddr_table _).trans haddr⟩

/-- What the hardware finds when the walk stops at depth `d`. -/
def stopped (mem : Mem) (root va : Word) (d : Nat) : Option Translation :=
  if hwPresent (levelEntry mem root va d) = true then
    some { pa := hwAddr (levelEntry mem root va d) va (lbitsAt d)
           flags := ptePWU &&& flagsPath mem root (vaPath va d) &&& levelEntry mem root va d }
  else none

/-- The permissions of one level more. -/
theorem and_flagsPath_succ (va : Word) (d : Nat) :
    ptePWU &&& flagsPath mem root (vaPath va d) &&& levelEntry mem root va d
      = ptePWU &&& flagsPath mem root (vaPath va (d + 1)) := by
  rw [vaPath_succ, flagsPath, BitVec.and_assoc]
  rfl

/-- An entry that ends the walk is absent, or a large page. -/
theorem large_of_stop {e : Word} (hstop : isTable e = false) (hp : hwPresent e = true) :
    hwLarge e = true := by
  cases hl : hwLarge e with
  | true => rfl
  | false =>
      have := (isTable_iff e).mpr ⟨hp, hl⟩
      rw [hstop] at this
      exact Bool.noConfusion this

section Levels

variable {va t : Word}

/-- The walk at the lowest level. -/
theorem hwPte_eq (h : table mem root (vaPath va 3) = some t) :
    hwPte mem va t (ptePWU &&& flagsPath mem root (vaPath va 3)) = stopped mem root va 3 := by
  have he : hwEntry mem t va 12 = levelEntry mem root va 3 := hwEntry_level h rfl
  rw [hwPte, he]
  rfl

/-- Going one level down on both sides. -/
theorem hwPde_descend {s : Word} (h : table mem root (vaPath va 3) = some t)
    (hs : table mem root (vaPath va 2) = some s) :
    hwPde mem va s (ptePWU &&& flagsPath mem root (vaPath va 2))
      = hwPte mem va t (ptePWU &&& flagsPath mem root (vaPath va 3)) := by
  obtain ⟨s', hs', hp, hl, ha⟩ := table_above h
  obtain rfl := Option.some.inj (hs.symm.trans hs')
  have he : hwEntry mem s va 21 = levelEntry mem root va 2 := hwEntry_level hs rfl
  rw [hwPde, he]
  show (if hwPresent (levelEntry mem root va 2) = true then _ else _) = _
  rw [if_pos hp, if_neg (by rw [hl]; exact Bool.false_ne_true), ha, and_flagsPath_succ]

/-- A walk that stops a level above. -/
theorem hwPde_stop (hs : table mem root (vaPath va 2) = some t)
    (hstop : isTable (levelEntry mem root va 2) = false) :
    hwPde mem va t (ptePWU &&& flagsPath mem root (vaPath va 2)) = stopped mem root va 2 := by
  have he : hwEntry mem t va 21 = levelEntry mem root va 2 := hwEntry_level hs rfl
  rw [hwPde, he, stopped]
  show (if hwPresent (levelEntry mem root va 2) = true then _ else _) = _
  by_cases hp : hwPresent (levelEntry mem root va 2) = true
  · rw [if_pos hp, if_pos hp, if_pos (large_of_stop hstop hp)]
    rfl
  · rw [if_neg hp, if_neg hp]

/-- A walk that goes on from the third level. -/
theorem hwPdpte_descend {s : Word} (h : table mem root (vaPath va 2) = some t)
    (hs : table mem root (vaPath va 1) = some s) :
    hwPdpte mem va s (ptePWU &&& flagsPath mem root (vaPath va 1))
      = hwPde mem va t (ptePWU &&& flagsPath mem root (vaPath va 2)) := by
  obtain ⟨s', hs', hp, hl, ha⟩ := table_above h
  obtain rfl := Option.some.inj (hs.symm.trans hs')
  have he : hwEntry mem s va 30 = levelEntry mem root va 1 := hwEntry_level hs rfl
  rw [hwPdpte, he]
  show (if hwPresent (levelEntry mem root va 1) = true then _ else _) = _
  rw [if_pos hp, if_neg (by rw [hl]; exact Bool.false_ne_true), ha, and_flagsPath_succ]

/-- A walk that stops at the third level. -/
theorem hwPdpte_stop (hs : table mem root (vaPath va 1) = some t)
    (hstop : isTable (levelEntry mem root va 1) = false) :
    hwPdpte mem va t (ptePWU &&& flagsPath mem root (vaPath va 1)) = stopped mem root va 1 := by
  have he : hwEntry mem t va 30 = levelEntry mem root va 1 := hwEntry_level hs rfl
  rw [hwPdpte, he, stopped]
  show (if hwPresent (levelEntry mem root va 1) = true then _ else _) = _
  by_cases hp : hwPresent (levelEntry mem root va 1) = true
  · rw [if_pos hp, if_pos hp, if_pos (large_of_stop hstop hp)]
    rfl
  · rw [if_neg hp, if_neg hp]

/-- A walk that goes on from the root. -/
theorem hwWalk_descend (hc : vaIsCanonical va = true)
    (h : table mem root (vaPath va 1) = some t) :
    hwWalk mem root va = hwPdpte mem va t (ptePWU &&& flagsPath mem root (vaPath va 1)) := by
  obtain ⟨s, hs, hp, -, ha⟩ := table_above h
  obtain rfl := Option.some.inj hs
  have he : hwEntry mem root va 39 = levelEntry mem root va 0 := hwEntry_level (d := 0) hs rfl
  have hflags : ptePWU &&& levelEntry mem root va 0
      = ptePWU &&& flagsPath mem root (vaPath va 1) := by
    rw [← and_flagsPath_succ, vaPath_zero, flagsPath, show ptePWU &&& ~~~(0#64) = ptePWU by decide]
  rw [hwWalk, if_pos (by rw [hwCanonical_eq]; exact hc), he]
  show (if hwPresent (levelEntry mem root va 0) = true then _ else _) = _
  rw [if_pos hp, ha, hflags]

/-- Bit 7 being clear, a walk that stops at the root finds nothing. -/
theorem hwWalk_stop (hc : vaIsCanonical va = true) (hps : NoRootPS mem root)
    (hstop : isTable (levelEntry mem root va 0) = false) :
    hwWalk mem root va = stopped mem root va 0 := by
  have he : hwEntry mem root va 39 = levelEntry mem root va 0 := hwEntry_level (d := 0) rfl rfl
  -- a present entry that is not followed has bit 7 set, and in the root none has
  have hp : ¬ hwPresent (levelEntry mem root va 0) = true := by
    intro hp
    have hl := large_of_stop hstop hp
    rw [← he, hwEntry_eq, hwLarge, hps _ (idxAt_lt va 39)] at hl
    exact Bool.noConfusion hl
  rw [hwWalk, if_pos (by rw [hwCanonical_eq]; exact hc), he, stopped, if_neg hp, if_neg hp]

/-- **THE HARDWARE STOPS WHERE A `vmiter` WALK STOPS.** -/
theorem hwWalk_stopped {d : Nat} (hc : vaIsCanonical va = true) (hd : d ≤ 3)
    (h : table mem root (vaPath va d) = some t)
    (hstop : d < 3 → isTable (levelEntry mem root va d) = false)
    (hps : NoRootPS mem root) :
    hwWalk mem root va = stopped mem root va d := by
  obtain rfl | rfl | rfl | rfl : d = 0 ∨ d = 1 ∨ d = 2 ∨ d = 3 := by omega
  · exact hwWalk_stop hc hps (hstop (by omega))
  · rw [hwWalk_descend hc h, hwPdpte_stop h (hstop (by omega))]
  · obtain ⟨s, hs, -⟩ := table_above h
    rw [hwWalk_descend hc hs, hwPdpte_descend h hs, hwPde_stop h (hstop (by omega))]
  · obtain ⟨s, hs, -⟩ := table_above h
    obtain ⟨r, hr, -⟩ := table_above hs
    rw [hwWalk_descend hc hr, hwPdpte_descend hs hr, hwPde_descend h hs, hwPte_eq h]

end Levels

/-! ## Agreement -/

/-- The frame a stopped walk reads is the hardware's. -/
theorem frame_add_eq {it : Vmiter} {d : Nat} (hal : LargeAligned mem root)
    (hon : OnPath mem root d it) (hstop : it.descends mem = false) (hps : NoRootPS mem root)
    (hp : (it.pep.read mem).getLsbD 0 = true) :
    frame (it.pep.read mem) it.lbits + (it.va &&& lbitsMask it.lbits)
      = hwAddr (it.pep.read mem) it.va (lbitsAt d) := by
  obtain ⟨t, ht, hpep⟩ := hon.slot
  rw [hon.lbits]
  by_cases hd : d = 3
  · subst hd
    exact hwAddr_small _ _
  · -- a present entry above the last level that is not followed is a large page
    have hlt : d < 3 := by have := hon.depth; omega
    have hnt : isTable (it.pep.read mem) = false := by
      rw [Vmiter.descends, hon.lbits,
        decide_eq_true ((lbitsAt_gt hon.depth).mpr hlt), Bool.true_and] at hstop
      exact hstop
    have hl := large_of_stop hnt hp
    rw [hpep] at hp hl ⊢
    have hd0 : d ≠ 0 := by
      intro h0
      subst h0
      obtain rfl := Option.some.inj ht
      have hclear := hps _ (idxAt_lt it.va (lbitsAt 0))
      exact Bool.noConfusion (hclear.symm.trans hl)
    refine hwAddr_large _ _ ?_ (lbitsAt_le d) ?_
    · simp only [lbitsAt, pageOffBits, pageIndexBits]
      omega
    · have := hal (vaPath it.va d) t _ ((isPath_vaPath it.va d).mono (by omega))
        (by rw [length_vaPath]; omega) ht (idxAt_lt it.va (lbitsAt d)) hp hl
      rw [length_vaPath] at this
      exact this

/-- **AGREEMENT WITH THE HARDWARE**: the constructor succeeds, `pa()` and the
    P, W and U bits of `perm()` are those of the hardware walk, and
    `present()` says whether there is a translation. -/
theorem new_agrees_hwWalk (hroot : PageAligned root) (hlow : PhysLow mem root)
    (hps : NoRootPS mem root) (hal : LargeAligned mem root) (va : Word) :
    ∃ it, Vmiter.new mem root va = .ok it
      ∧ it.pa mem = (hwWalk mem root va).elim (~~~(0#64)) Translation.pa
      ∧ it.perms mem &&& ptePWU = (hwWalk mem root va).elim 0#64 Translation.flags
      ∧ (it.present mem = true ↔ it.pa mem ≠ ~~~(0#64)) := by
  have hfresh : Walked mem root (fresh mem root va) ∧ (fresh mem root va).va = va :=
    fresh_walked hroot va
  obtain ⟨hw, hva⟩ := hfresh
  refine ⟨fresh mem root va, new_ok hroot hlow va, ?_⟩
  rw [← and_assoc]
  refine ⟨?_, walked_present_iff_pa hw⟩
  rcases hw with ⟨d, hon, hstop⟩ | hoff
  · obtain ⟨t, ht, -⟩ := hon.slot
    have hread := hon.read
    have hperm := hon.perm
    have hframe := frame_add_eq hal hon hstop hps
    have hcanon := hon.canonical
    rw [hva] at ht hread hperm hframe hcanon
    have hnt : d < 3 → isTable (levelEntry mem root va d) = false := by
      intro hlt
      rw [Vmiter.descends, hon.lbits, decide_eq_true ((lbitsAt_gt hon.depth).mpr hlt),
        Bool.true_and, hread] at hstop
      exact hstop
    rw [hwWalk_stopped hcanon hon.depth ht hnt hps, onPath_pa hon, onPath_perms hon, hva,
      stopped]
    by_cases hp : ((fresh mem root va).pep.read mem).getLsbD 0 = true
    · rw [if_pos hp, if_pos hp, hframe hp, hperm, and_permPath_and, hread,
        if_pos (show hwPresent (levelEntry mem root va d) = true by rw [hread] at hp; exact hp)]
      refine ⟨rfl, ?_⟩
      rw [BitVec.and_comm, ← BitVec.and_assoc]
      rfl
    · rw [if_neg hp, if_neg hp,
        if_neg (show ¬ hwPresent (levelEntry mem root va d) = true by rw [hread] at hp; exact hp)]
      exact ⟨rfl, BitVec.zero_and⟩
  · -- both walks give up before the root
    have hnc := hoff.noncanonical
    rw [hva] at hnc
    rw [hwWalk, if_neg (by rw [hwCanonical_eq, hnc]; exact Bool.false_ne_true), offPath_pa hoff,
      offPath_perms hoff]
    exact ⟨rfl, BitVec.zero_and⟩

theorem new_agrees_hwWalk_small :
    ∃ it, Vmiter.new smallTable 0x1000#64 0x200123#64 = .ok it
      ∧ it.pa smallTable
          = (hwWalk smallTable 0x1000#64 0x200123#64).elim (~~~(0#64)) Translation.pa
      ∧ it.perms smallTable &&& ptePWU
          = (hwWalk smallTable 0x1000#64 0x200123#64).elim 0#64 Translation.flags
      ∧ (it.present smallTable = true ↔ it.pa smallTable ≠ ~~~(0#64)) := by
  have hwf := smallTable_wellFormed
  refine new_agrees_hwWalk hwf.aligned hwf.low ?_ ?_ _
  · intro i hi
    have hptr := toNat_entryPtr hwf.aligned hi
    rcases smallTable_cases (entryPtr 0x1000#64 (BitVec.ofNat 64 i)) with
      ⟨-, h⟩ | ⟨-, h⟩ | ⟨-, h⟩ | ⟨-, h⟩ | ⟨ha, -⟩ | ⟨ha, -⟩ | h
    · rw [h]; decide
    · rw [h]; decide
    · rw [h]; decide
    · rw [h]; decide
    · rw [ha, show (0x2008#64).toNat = 0x2008 from rfl, show (0x1000#64).toNat = 0x1000 from rfl]
        at hptr
      omega
    · rw [ha, show (0x3008#64).toNat = 0x3008 from rfl, show (0x1000#64).toNat = 0x1000 from rfl]
        at hptr
      omega
    · rw [h]; decide
  · -- the large pages of `smallTable` are one 1 GiB and one 2 MiB page
    intro p t i hp _ ht hi h0 h7
    have hal := table_aligned hwf.aligned ht
    have hp3 : IsPath 512 3 p := hp.mono (by omega)
    rcases smallTable_cases (entryPtr t (BitVec.ofNat 64 i)) with
      ⟨-, h⟩ | ⟨-, h⟩ | ⟨-, h⟩ | ⟨-, h⟩ | ⟨ha, h⟩ | ⟨ha, h⟩ | h <;> rw [h] at h7 ⊢
    · exact absurd h7 (by decide)
    · exact absurd h7 (by decide)
    · exact absurd h7 (by decide)
    · exact absurd h7 (by decide)
    · obtain ⟨rfl, rfl⟩ : t = 0x2000#64 ∧ i = 1 := entryPtr_inj hal rfl hi (by omega) ha
      obtain rfl := hwf.tree p [0] _ hp3 (((IsPath.nil 0).cons (by omega)).mono (by omega)) ht
        (by decide)
      decide
    · obtain ⟨rfl, rfl⟩ : t = 0x3000#64 ∧ i = 1 := entryPtr_inj hal rfl hi (by omega) ha
      obtain rfl := hwf.tree p [0, 0] _ hp3
        ((((IsPath.nil 0).cons (by omega)).cons (by omega)).mono (by omega)) ht (by decide)
      decide
    · exact absurd h7 (by decide)

/-- The middle of the 2 MiB page, through both walks. -/
example : hwWalk smallTable 0x1000#64 0x234567#64
    = some { pa := 0x234567#64, flags := 0x7#64 } := by decide

end HardwareWalk
