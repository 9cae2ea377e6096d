import Cs61.ElfRecords
import Mathlib.Data.List.Perm.Basic

/-! # The sorted symbol table

    `sort_symtab` looks whether the symbols are in order, and sorts them if they
    are not.  What it leaves is in order, so that it leaves it alone from then on;
    the entries are the old ones, in another order. -/

namespace ElfFile

open ByteFiles Checks ElfSymbols

/-! ## Writes -/

namespace ElfInfo

variable {e : ElfInfo} {x : Field} {v : Nat}

/-- A write inside the file. -/
theorem store_ok (h : x.off + x.bytes ≤ e.size) : e.store x v = .ok (e.set x v) := if_pos h

/-- Writes that are all inside the file change its bytes only. -/
theorem storeAll_ok {l : List (Field × Nat)} (h : ∀ x ∈ l, x.1.off + x.1.bytes ≤ e.size) :
    e.storeAll l = .ok { e with
      data := l.foldl (fun d x => put d x.1.off x.1.bytes x.2) e.data } := by
  induction l generalizing e with
  | nil => rfl
  | cons x l ih =>
      rw [storeAll, store_ok (h x List.mem_cons_self)]
      exact ih (e := e.set x.1 x.2) fun y hy => h y (List.mem_cons_of_mem x hy)

/-- A byte in none of the fields. -/
theorem foldl_put_of_not_mem {l : List (Field × Nat)} {d : Bytes} {p : Nat}
    (h : ∀ x ∈ l, p < x.1.off ∨ x.1.off + x.1.bytes ≤ p) :
    l.foldl (fun d x => put d x.1.off x.1.bytes x.2) d p = d p := by
  induction l generalizing d with
  | nil => rfl
  | cons x l ih =>
      rw [List.foldl_cons, ih fun y hy => h y (List.mem_cons_of_mem x hy)]
      exact put_of_not_mem _ (h x List.mem_cons_self)

end ElfInfo

/-! ## The symbols -/

variable {b b' : Buffer} {e : ElfInfo} {i j k m n p : Nat}

/-- The bytes of an entry are those of the symbol it is read as. -/
theorem bytesOfSymbol_symbolOf {v : Nat} (h : v < 256 ^ sizeofSymbol) :
    bytesOfSymbol (symbolOf v) = v := by
  simp only [bytesOfSymbol, symbolOf, BitVec.toNat_ofNat, sizeofSymbol] at h ⊢
  omega

namespace Buffer

/-- The `j`th symbol. -/
def symbol (b : Buffer) (j : Nat) : ElfSymbol := symbolOf (b.val (entryOf b.table.symtab j))

/-- The loop of `sort_symtab` finds nothing. -/
def InOrder (b : Buffer) : Prop :=
  ∀ k, 2 ≤ k → k < b.table.nsymtab → symbolLess (b.symbol k) (b.symbol (k - 1)) = false

/-- All symbols but the first. -/
def others (b : Buffer) : List ElfSymbol :=
  (List.range (b.table.nsymtab - 1)).map fun k => b.symbol (k + 1)

/-- A file in order has a table as the kernel's lookup takes it: the order is
    transitive, so it is enough that `sort_symtab` compares neighbours. -/
theorem InOrder.sorted (h : b.InOrder) : Sorted b.others := by
  have hle : ∀ d i, 1 ≤ i → i + d + 1 < b.table.nsymtab →
      symbolLess (b.symbol (i + d + 1)) (b.symbol i) = false := by
    intro d i hi
    induction d with
    | zero => exact fun hd => h (i + 1) (by omega) hd
    | succ d ih =>
        intro hd
        exact not_symbolLess_trans (ih (by omega)) (h (i + d + 1 + 1) (by omega) hd)
  refine List.pairwise_map.mpr (List.pairwise_lt_range.imp_of_mem ?_)
  intro j k _ hk hjk
  have hk := List.mem_range.mp hk
  obtain ⟨d, rfl⟩ := Nat.exists_eq_add_of_lt hjk
  have hpair := hle d (j + 1) (by omega) (by omega)
  rwa [show j + 1 + d + 1 = j + d + 1 + 1 by omega] at hpair

/-- The table of a file in order whose first symbol is the null symbol. -/
def symbolTable (b : Buffer) (h : b.InOrder) : SymbolTable := ⟨b.others, h.sorted⟩

/-- A symbol and its bytes. -/
theorem bytesOfSymbol_symbol (b : Buffer) (j : Nat) :
    bytesOfSymbol (b.symbol j) = b.val (entryOf b.table.symtab j) :=
  bytesOfSymbol_symbolOf (num_lt _ _ _)

end Buffer

/-- A file that was accepted and whose symbol table is cached. -/
structure Cached (e : ElfInfo) : Prop extends Opened e where
  symtab : e.HasSymtab
  cache : e.cache = some e.table

namespace Cached

variable (h : Cached e)

include h

theorem getD_cache : e.cache.getD ⟨0, 0, 0⟩ = e.table := by
  rw [h.cache]
  rfl

theorem entry_inside (hj : j < e.table.nsymtab) :
    (entryOf e.table.symtab j).off + sizeofSymbol ≤ e.size := by
  have hj : j < e.val (shSize e.shoff e.symtabNdx) / sizeofSymbol :=
    Nat.lt_of_lt_of_le hj (Nat.mod_le _ _)
  exact (h.valid.symbol_terminated (Buffer.symtabNdx_lt h.valid) h.symtab.type hj).1

/-- A symbol is read. -/
theorem symbolAt_eq (hj : j < e.table.nsymtab) : e.symbolAt e.table j = .ok (e.symbol j) := by
  rw [ElfInfo.symbolAt, Buffer.get_ok (h.entry_inside hj)]
  rfl

/-- The loop of `sort_symtab`. -/
theorem firstUnordered_gives (hi : 1 ≤ i) (m : Nat) (hm : m = e.table.nsymtab - i) :
    Gives (e.firstUnordered e.table i m) fun r => r < e.table.nsymtab ↔
      ¬ ∀ k, i ≤ k → k < e.table.nsymtab → symbolLess (e.symbol k) (e.symbol (k - 1)) = false := by
  induction m generalizing i with
  | zero =>
      refine Gives.ok (iff_of_false (by omega) (not_not.mpr fun k hk hk' => ?_))
      exact absurd hk' (by omega)
  | succ m ih =>
      rw [ElfInfo.firstUnordered, h.symbolAt_eq (by omega), h.symbolAt_eq (by omega)]
      show Gives (if _ then _ else _) _
      split_ifs with hless
      · refine Gives.ok (iff_of_true (by omega) fun hall => ?_)
        exact Bool.false_ne_true ((hall i (Nat.le_refl i) (by omega)).symm.trans hless)
      · refine (ih (i := i + 1) (by omega) (by omega)).mono fun r hr => hr.trans (not_congr ?_)
        refine ⟨fun hall k hk hk' => ?_, fun hall k hk => hall k (Nat.le_of_succ_le hk)⟩
        rcases Nat.eq_or_lt_of_le hk with rfl | hlt
        · exact eq_false_of_ne_true hless
        · exact hall k hlt hk'

/-- All of them are. -/
theorem symbolsFrom_eq (i m : Nat) (hm : i + m ≤ e.table.nsymtab) :
    e.symbolsFrom e.table i m = .ok ((List.range' i m).map e.symbol) := by
  induction m generalizing i with
  | zero => rfl
  | succ m ih =>
      rw [ElfInfo.symbolsFrom, h.symbolAt_eq (by omega)]
      show (e.symbolsFrom e.table (i + 1) m >>= _) = _
      rw [ih (i + 1) (by omega)]
      rfl

/-- **A TABLE IN ORDER** is left alone. -/
theorem sortSymtab_inOrder (hordered : e.InOrder) : e.sortSymtab = .ok e := by
  obtain ⟨r, hr, hlt⟩ := h.firstUnordered_gives (i := 2) (by decide) _ rfl
  have hstop : ¬ r < e.table.nsymtab := fun hr' => hlt.mp hr' hordered
  rw [ElfInfo.sortSymtab, symtab_cached h.cache]
  show (e.firstUnordered (e.cache.getD ⟨0, 0, 0⟩) 2 ((e.cache.getD ⟨0, 0, 0⟩).nsymtab - 2) >>= _) = _
  rw [h.getD_cache]
  rw [hr]
  exact if_neg hstop

end Cached

/-! ## The entries that are written -/

section Entries

variable {c : SymtabCache} {l : List ElfSymbol} {d : Bytes}

/-- The bytes with these symbols from the `i`th on. -/
def withEntries (c : SymtabCache) (d : Bytes) (i : Nat) (l : List ElfSymbol) : Bytes :=
  (ElfInfo.entriesFrom c i l).foldl (fun d x => put d x.1.off x.1.bytes x.2) d

/-- One entry is written after the other. -/
theorem withEntries_cons (s : ElfSymbol) : withEntries c d i (s :: l)
    = withEntries c (put d (entryOf c.symtab i).off sizeofSymbol (bytesOfSymbol s)) (i + 1) l := rfl

/-- Only entries of the table are written. -/
theorem mem_entriesFrom {x : Field × Nat} (hx : x ∈ ElfInfo.entriesFrom c i l) :
    ∃ k, k < l.length ∧ x.1 = entryOf c.symtab (i + k) := by
  induction l generalizing i with
  | nil => exact absurd hx List.not_mem_nil
  | cons s l ih =>
      rcases List.mem_cons.mp hx with rfl | hx
      · exact ⟨0, Nat.succ_pos _, rfl⟩
      · obtain ⟨k, hk, hfield⟩ := ih hx
        exact ⟨k + 1, Nat.succ_lt_succ hk, by rw [hfield, Nat.add_assoc, Nat.add_comm 1 k]⟩

/-- A byte outside these entries. -/
theorem withEntries_apart (h : p < (entryOf c.symtab i).off
    ∨ (entryOf c.symtab (i + l.length)).off ≤ p) : withEntries c d i l p = d p := by
  refine ElfInfo.foldl_put_of_not_mem fun x hx => ?_
  obtain ⟨k, hk, hfield⟩ := mem_entriesFrom hx
  rw [hfield]
  simp only [entryOf, sizeofSymbol] at h ⊢
  omega

/-- What is read of an entry. -/
theorem num_withEntries (hk : k < l.length) (hbytes : ∀ s ∈ l, bytesOfSymbol s < 256 ^ sizeofSymbol) :
    num (withEntries c d i l) (entryOf c.symtab (i + k)).off sizeofSymbol = bytesOfSymbol l[k] := by
  induction l generalizing i k d with
  | nil => exact absurd hk (Nat.not_lt_zero k)
  | cons s l ih =>
      rw [withEntries_cons]
      cases k with
      | zero =>
          have hhead : num (put d (entryOf c.symtab i).off sizeofSymbol (bytesOfSymbol s))
              (entryOf c.symtab i).off sizeofSymbol = bytesOfSymbol s :=
            num_put (hbytes s List.mem_cons_self)
          show num _ (entryOf c.symtab i).off sizeofSymbol = bytesOfSymbol s
          refine Eq.trans (num_congr fun o ho => withEntries_apart (Or.inl ?_)) hhead
          simp only [entryOf, sizeofSymbol] at ho ⊢
          omega
      | succ k =>
          have hk : k < l.length := Nat.lt_of_succ_lt_succ hk
          have hindex : i + (k + 1) = i + 1 + k := by omega
          show num _ (entryOf c.symtab (i + (k + 1))).off sizeofSymbol = bytesOfSymbol l[k]
          rw [hindex]
          exact ih hk fun s hs => hbytes s (List.mem_cons_of_mem _ hs)

end Entries

/-! ## Symbols in another order -/

section Permuted

variable {S : List ElfSymbol}

/-- All symbols but the first. -/
def Buffer.sortable (b : Buffer) : List ElfSymbol :=
  (List.range' 1 (b.table.nsymtab - 1)).map b.symbol

theorem length_sortable (b : Buffer) : b.sortable.length = b.table.nsymtab - 1 := by
  rw [Buffer.sortable, List.length_map, List.length_range']

/-- The list that is sorted is that of the symbols behind the first. -/
theorem getElem_sortable (hk : k < b.sortable.length) : b.sortable[k] = b.symbol (1 + k) := by
  simp only [Buffer.sortable, List.getElem_map, List.getElem_range', Nat.one_mul]

/-- The bytes of a symbol of the table are its entry. -/
theorem bytesOfSymbol_lt (hperm : S.Perm b.sortable) {s : ElfSymbol} (hs : s ∈ S) :
    bytesOfSymbol s < 256 ^ sizeofSymbol ∧ symbolOf (bytesOfSymbol s) = s := by
  obtain ⟨j, -, rfl⟩ := List.mem_map.mp (hperm.mem_iff.mp hs)
  rw [Buffer.bytesOfSymbol_symbol]
  exact ⟨num_lt _ _ _, rfl⟩

variable (hperm : S.Perm b.sortable)

/-- Which symbol comes to the `j`th place; the first one stays. -/
def sortedFrom (hperm : S.Perm b.sortable) (j : Nat) : Nat :=
  if h : 1 ≤ j ∧ j - 1 < S.length then (hperm.idxBij ⟨j - 1, h.2⟩).val + 1 else j

theorem sortedFrom_of_lt (hj : 1 ≤ j) (hlt : j - 1 < S.length) :
    sortedFrom hperm j = (hperm.idxBij ⟨j - 1, hlt⟩).val + 1 := dif_pos ⟨hj, hlt⟩

theorem sortedFrom_of_not (hj : ¬ (1 ≤ j ∧ j - 1 < S.length)) : sortedFrom hperm j = j := dif_neg hj

/-- The new order is an order of the same symbols. -/
theorem sortedFrom_bijOn :
    Set.BijOn (sortedFrom hperm) (Set.Iio b.table.nsymtab) (Set.Iio b.table.nsymtab) := by
  have hlen : S.length = b.table.nsymtab - 1 := hperm.length_eq.trans (length_sortable b)
  have hsortable := length_sortable b
  refine ⟨fun j hj => ?_, fun i hi j hj heq => ?_, fun i hi => ?_⟩
  · have hj : j < b.table.nsymtab := hj
    show sortedFrom hperm j < _
    by_cases hmoved : 1 ≤ j ∧ j - 1 < S.length
    · rw [sortedFrom_of_lt hperm hmoved.1 hmoved.2]
      have hbound := (hperm.idxBij ⟨j - 1, hmoved.2⟩).isLt
      omega
    · rwa [sortedFrom_of_not hperm hmoved]
  · have hi : i < b.table.nsymtab := hi
    have hj : j < b.table.nsymtab := hj
    by_cases hmi : 1 ≤ i ∧ i - 1 < S.length <;> by_cases hmj : 1 ≤ j ∧ j - 1 < S.length
    · rw [sortedFrom_of_lt hperm hmi.1 hmi.2, sortedFrom_of_lt hperm hmj.1 hmj.2] at heq
      have hsame := hperm.idxBij_injective (Fin.ext (Nat.succ.inj heq))
      have hindex : i - 1 = j - 1 := congrArg Fin.val hsame
      omega
    · rw [sortedFrom_of_lt hperm hmi.1 hmi.2, sortedFrom_of_not hperm hmj] at heq
      omega
    · rw [sortedFrom_of_not hperm hmi, sortedFrom_of_lt hperm hmj.1 hmj.2] at heq
      omega
    · rwa [sortedFrom_of_not hperm hmi, sortedFrom_of_not hperm hmj] at heq
  · have hi : i < b.table.nsymtab := hi
    rcases Nat.eq_zero_or_pos i with rfl | hpos
    · exact ⟨0, hi, sortedFrom_of_not hperm (by omega)⟩
    · obtain ⟨k, hk⟩ := hperm.idxBij_surjective ⟨i - 1, by omega⟩
      have hlt := k.isLt
      refine ⟨k.val + 1, show k.val + 1 < _ by omega, ?_⟩
      rw [sortedFrom_of_lt hperm (by omega) (show k.val + 1 - 1 < S.length by omega)]
      have hindex : (hperm.idxBij k).val = i - 1 := congrArg Fin.val hk
      show (hperm.idxBij k).val + 1 = i
      omega

/-- The entries that were written are those that were there. -/
theorem reordered_of_perm (hdata : b'.data = withEntries b.table b.data 1 S) :
    Reordered b b' (sortedFrom hperm) := by
  have hlen : S.length = b.table.nsymtab - 1 := hperm.length_eq.trans (length_sortable b)
  have hknown : b.table.nsymtab ≤ (b.tableOf b.symtabNdx).nsymtab := Nat.mod_le _ _
  have hbij := sortedFrom_bijOn hperm
  refine ⟨fun j hj => ?_, hbij, fun j hj k hk => ?_⟩
  · by_cases hmoved : 1 ≤ j ∧ j - 1 < S.length
    · have hlt : sortedFrom hperm j < b.table.nsymtab :=
        hbij.mapsTo (show j < b.table.nsymtab by omega)
      omega
    · rwa [sortedFrom_of_not hperm hmoved]
  · by_cases hmoved : 1 ≤ j ∧ j - 1 < S.length
    · have hread : num b'.data (entryOf b.table.symtab (1 + (j - 1))).off sizeofSymbol
          = bytesOfSymbol S[j - 1] := by
        rw [hdata]
        exact num_withEntries hmoved.2 fun s hs => (bytesOfSymbol_lt hperm hs).1
      have hfrom := hperm.getElem_idxBij_eq_getElem ⟨j - 1, hmoved.2⟩
      rw [getElem_sortable] at hfrom
      rw [Nat.add_sub_cancel' hmoved.1, show S[j - 1] = _ from hfrom.symm,
        Buffer.bytesOfSymbol_symbol, Nat.add_comm 1, ← sortedFrom_of_lt hperm hmoved.1 hmoved.2]
        at hread
      exact bytes_eq hread hk
    · rw [sortedFrom_of_not hperm hmoved, hdata]
      refine withEntries_apart ?_
      simp only [entryOf, sizeofSymbol] at hk ⊢
      omega

end Permuted

/-! ## The step -/

/-- A step behind `rewrite_symtabref`: the file is edited in place, no record is
    touched, and an edit is noted. -/
structure Edited (e e' : ElfInfo) : Prop where
  inPlace : InPlace e.toBuffer e'.toBuffer
  records : ∀ i p, Covers e.toBuffer (.contents i) p →
    e.val (shType e.shoff i) = shtProgbits → e'.data p = e.data p
  ok : e'.ok = e.ok
  pht : e'.pht = e.pht
  sht : e'.sht = e.sht
  cache : e'.cache = e.cache
  noted : e'.changed = false → e' = e

namespace Edited

variable {e' : ElfInfo}

theorem refl (h : Cached e) (hlaid : LaidOut e.toBuffer) : Edited e e where
  inPlace := InPlace.of_solid h.valid hlaid rfl (fun _ _ => rfl) rfl
    ⟨id, reordered_id h.valid h.symtab fun _ _ => rfl⟩
  records := fun _ _ _ _ => rfl
  ok := rfl
  pht := rfl
  sht := rfl
  cache := rfl
  noted := fun _ => rfl

theorem cached (hed : Edited e e') (h : Cached e) : Cached e' where
  valid := (hed.inPlace.refiled h.valid).valid h.valid h.symtab
  ok := hed.ok.trans h.ok
  pht := by rw [hed.pht, h.pht, hed.inPlace.phoff]
  sht := by rw [hed.sht, h.sht, hed.inPlace.shoff]
  symtab := (hed.inPlace.refiled h.valid).hasSymtab h.valid h.symtab
  cache := by rw [hed.cache, h.cache, hed.inPlace.table_eq h.valid h.symtab]

end Edited

/-- The sorted table is in order. -/
theorem inOrder_sorted (hplace : InPlace b b') (hv : Valid b) (hsym : b.HasSymtab)
    (hdata : b'.data
      = withEntries b.table b.data 1 (b.sortable.mergeSort fun a b => !symbolLess b a)) :
    b'.InOrder := by
  have hperm : (b.sortable.mergeSort fun a b => !symbolLess b a).Perm b.sortable :=
    List.mergeSort_perm _ _
  have hlen := hperm.length_eq.trans (length_sortable b)
  have hsorted := List.pairwise_iff_getElem.mp (sorted_mergeSort b.sortable)
  have hread : ∀ k (hk : k < (b.sortable.mergeSort fun a b => !symbolLess b a).length),
      b'.symbol (1 + k) = (b.sortable.mergeSort fun a b => !symbolLess b a)[k] := by
    intro k hk
    have hnum := num_withEntries (c := b.table) (d := b.data) (i := 1) hk
      fun s hs => (bytesOfSymbol_lt hperm hs).1
    rw [← hdata] at hnum
    rw [Buffer.symbol, hplace.table_eq hv hsym]
    show symbolOf (num b'.data (entryOf b.table.symtab (1 + k)).off sizeofSymbol) = _
    rw [hnum]
    exact (bytesOfSymbol_lt hperm (List.getElem_mem hk)).2
  intro k hk hlt
  rw [hplace.table_eq hv hsym] at hlt
  have hpair := hsorted (k - 2) (k - 1) (by omega) (by omega) (by omega)
  rwa [← hread, ← hread, show 1 + (k - 1) = k by omega, show 1 + (k - 2) = k - 1 by omega] at hpair

namespace Cached

variable (h : Cached e)

include h

/-- A table that is not in order is sorted. -/
theorem sortSymtab_unordered (hno : ¬ e.InOrder) : e.sortSymtab = .ok (ElfInfo.touched { e with
    data := withEntries e.table e.data 1 (e.sortable.mergeSort fun a b => !symbolLess b a) }) := by
  obtain ⟨r, hr, hlt⟩ := h.firstUnordered_gives (i := 2) (by decide) _ rfl
  have hfound : r < e.table.nsymtab := hlt.mpr hno
  have hmany : 1 + (e.table.nsymtab - 1) ≤ e.table.nsymtab := by omega
  have hperm : (e.sortable.mergeSort fun a b => !symbolLess b a).Perm e.sortable :=
    List.mergeSort_perm _ _
  have hlen := hperm.length_eq.trans (length_sortable e.toBuffer)
  have hstore := ElfInfo.storeAll_ok (e := e)
    (l := ElfInfo.entriesFrom e.table 1 (e.sortable.mergeSort fun a b => !symbolLess b a))
    fun x hx => by
      obtain ⟨k, hk, hfield⟩ := mem_entriesFrom hx
      rw [hfield]
      exact h.entry_inside (by omega)
  rw [ElfInfo.sortSymtab, symtab_cached h.cache]
  show (e.firstUnordered (e.cache.getD ⟨0, 0, 0⟩) 2 ((e.cache.getD ⟨0, 0, 0⟩).nsymtab - 2) >>= _) = _
  rw [h.getD_cache]
  rw [hr]
  show (if r < e.table.nsymtab then
    e.symbolsFrom e.table 1 (e.table.nsymtab - 1) >>= _ else _) = _
  rw [if_pos hfound, h.symbolsFrom_eq 1 _ hmany]
  show (e.storeAll (ElfInfo.entriesFrom e.table 1
    (e.sortable.mergeSort fun a b => !symbolLess b a)) >>= _) = _
  rw [hstore]
  rfl

/-- **`sort_symtab`** leaves the symbols in order. -/
theorem sorts (hlaid : LaidOut e.toBuffer) :
    ∃ e', e.sortSymtab = .ok e' ∧ Edited e e' ∧ e'.InOrder ∧ e'.phnum = e.phnum := by
  by_cases hordered : e.InOrder
  · exact ⟨e, h.sortSymtab_inOrder hordered, Edited.refl h hlaid, hordered, rfl⟩
  have hperm : (e.sortable.mergeSort fun a b => !symbolLess b a).Perm e.sortable :=
    List.mergeSort_perm _ _
  have hlen := hperm.length_eq.trans (length_sortable e.toBuffer)
  -- only entries are written
  have hapart : ∀ p, ¬ Covers e.toBuffer (.contents e.symtabNdx) p →
      withEntries e.table e.data 1 (e.sortable.mergeSort fun a b => !symbolLess b a) p
        = e.data p := by
    intro p hp
    refine withEntries_apart ?_
    by_contra hmeet
    obtain ⟨hfirst, hlast⟩ := not_or.mp hmeet
    refine hp ?_
    have hknown : e.table.nsymtab ≤ (e.tableOf e.symtabNdx).nsymtab := Nat.mod_le _ _
    simp only [entryOf, sizeofSymbol] at hfirst hlast
    have hcovers := covers_entry (j := (p - e.table.symtab) / 24) (k := (p - e.table.symtab) % 24)
      h.valid h.symtab (by omega) (Nat.mod_lt _ (by decide))
    have hp : (entryOf e.table.symtab ((p - e.table.symtab) / 24)).off
        + (p - e.table.symtab) % 24 = p := by
      simp only [entryOf, sizeofSymbol]
      omega
    rwa [hp] at hcovers
  have hplace : InPlace e.toBuffer (ElfInfo.touched { e with
      data := withEntries e.table e.data 1
        (e.sortable.mergeSort fun a b => !symbolLess b a) }).toBuffer := by
    exact InPlace.within h.valid hlaid Region.noConfusion rfl hapart
      (fun p hcovers hp => absurd rfl (hp.not_covered hlaid hcovers).2)
      ⟨_, reordered_of_perm hperm rfl⟩
  refine ⟨_, h.sortSymtab_unordered hordered, ⟨hplace, fun i p hp htype => ?_, rfl, rfl, rfl, rfl,
    fun hchanged => Bool.noConfusion hchanged⟩, inOrder_sorted hplace h.valid h.symtab rfl,
    phnum_apart hlaid Region.noConfusion hapart⟩
  refine hapart p fun hcovers => ?_
  obtain rfl := Region.contents.inj (hlaid _ _ p hp hcovers)
  exact absurd (h.symtab.type.symm.trans htype) (by decide)

end Cached

end ElfFile
