import Mathlib.Data.List.Basic

/-! # The symbol table that `mkchickadeesymtab` leaves

    The tool sorts all entries but the first by `symbol_less`: section, file and
    other special symbols first, in the order in which they are, then the
    ordinary symbols by address, those with one address by size.  A `SymbolTable`
    is what it leaves. -/

namespace ElfSymbols

/-- `elf_symbol`. -/
structure ElfSymbol where
  stName : BitVec 32
  stInfo : BitVec 8
  stOther : BitVec 8
  stShndx : BitVec 16
  stValue : BitVec 64
  stSize : BitVec 64
deriving DecidableEq

/-- `ELF_STT_MASK`. -/
def sttMask : BitVec 8 := 0x0F
/-- `ELF_STT_OBJECT`. -/
def sttObject : BitVec 8 := 0x01
/-- `ELF_STT_FUNC`. -/
def sttFunc : BitVec 8 := 0x02

/-- The type of a symbol. -/
def ElfSymbol.type (a : ElfSymbol) : BitVec 8 := a.stInfo &&& sttMask

/-- A section, file or other special symbol. -/
def ElfSymbol.isSpecial (a : ElfSymbol) : Bool := sttFunc < a.type

/-- The first symbol of a table. -/
def nullSymbol : ElfSymbol := ⟨0, 0, 0, 0, 0, 0⟩

/-- `symbol_less(a, b)`. -/
def symbolLess (a b : ElfSymbol) : Bool :=
  if a.isSpecial || b.isSpecial then a.isSpecial && !b.isSpecial
  else a.stValue < b.stValue || (a.stValue == b.stValue && a.stSize < b.stSize)

/-- Entries in the order of `symbol_less`. -/
def Sorted (syms : List ElfSymbol) : Prop := syms.Pairwise fun a b => symbolLess b a = false

instance (syms : List ElfSymbol) : Decidable (Sorted syms) := List.instDecidablePairwise syms

/-! ## The order -/

/-- What it means that one symbol does not come after another. -/
theorem not_symbolLess_iff {a b : ElfSymbol} : symbolLess b a = false
    ↔ (b.isSpecial = true → a.isSpecial = true)
      ∧ (a.isSpecial = false → b.isSpecial = false →
        a.stValue < b.stValue ∨ (a.stValue = b.stValue ∧ a.stSize ≤ b.stSize)) := by
  rw [symbolLess]
  cases ha : a.isSpecial <;> cases hb : b.isSpecial
  · simp only [Bool.or_self, Bool.false_eq_true, if_false, false_imp_iff, true_and,
      forall_const, Bool.or_eq_false_iff, Bool.and_eq_false_iff, decide_eq_false_iff_not,
      beq_eq_false_iff_ne, BitVec.lt_def, BitVec.le_def, ne_eq, ← BitVec.toNat_inj]
    omega
  all_goals simp

/-- The order is transitive. -/
theorem not_symbolLess_trans {a b c : ElfSymbol} (hab : symbolLess b a = false)
    (hbc : symbolLess c b = false) : symbolLess c a = false := by
  rw [not_symbolLess_iff] at hab hbc ⊢
  refine ⟨fun hc => hab.1 (hbc.1 hc), ?_⟩
  intro ha hc
  have hb : b.isSpecial = false := by
    cases hb : b.isSpecial
    · rfl
    · rw [hab.1 hb] at ha
      exact ha
  rcases hab.2 ha hb with hlt | ⟨heq, hle⟩ <;> rcases hbc.2 hb hc with hlt' | ⟨heq', hle'⟩
  · exact Or.inl (BitVec.lt_trans hlt hlt')
  · exact Or.inl (heq' ▸ hlt)
  · exact Or.inl (heq ▸ hlt')
  · exact Or.inr ⟨heq.trans heq', BitVec.le_trans hle hle'⟩

/-- The order is total. -/
theorem not_symbolLess_total (a b : ElfSymbol) :
    (!symbolLess b a || !symbolLess a b) = true := by
  rw [Bool.or_eq_true, Bool.not_eq_true', Bool.not_eq_true', not_symbolLess_iff,
    not_symbolLess_iff]
  cases ha : a.isSpecial <;> cases hb : b.isSpecial
  · rcases BitVec.lt_trichotomy a.stValue b.stValue with h | h | h
    · simp [h]
    · simp [h, BitVec.le_total]
    · simp [h]
  all_goals simp

/-! ## Sorting -/

/-- What `std::stable_sort` leaves is in order. -/
theorem sorted_mergeSort (syms : List ElfSymbol) :
    Sorted (syms.mergeSort fun a b => !symbolLess b a) := by
  have hpair : (syms.mergeSort fun a b => !symbolLess b a).Pairwise
      fun a b => (!symbolLess b a) = true := by
    refine List.pairwise_mergeSort ?_ not_symbolLess_total syms
    intro a b c hab hbc
    rw [Bool.not_eq_true'] at *
    exact not_symbolLess_trans hab hbc
  refine hpair.imp ?_
  intro a b hab
  rwa [Bool.not_eq_true'] at hab

/-- A table as the tool leaves it: the null symbol, and the others in order. -/
structure SymbolTable where
  rest : List ElfSymbol
  sorted : Sorted rest

/-- All entries, from the null symbol on. -/
def SymbolTable.syms (T : SymbolTable) : List ElfSymbol := nullSymbol :: T.rest

end ElfSymbols
