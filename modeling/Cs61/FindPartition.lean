import Cs61.ByteFiles
import Cs61.LoopRules
import Mathlib.Data.Fintype.Card
import Mathlib.Data.Finite.Prod
import Mathlib.Logic.Relation
import Mathlib.Order.Interval.Finset.Nat

/-! # The search for a kernel partition

    A partition table has four entries; an extended entry leads to another table,
    whose sector and base are numbers on the disk.  The search goes through the
    entries in order and into each extended one, so it gets from a table to those
    of `Next`, and it ends exactly when none of them leads back to itself
    (`search_ends_iff`): tables are finitely many.  Nothing on a disk prevents
    that: an extended entry that starts at sector 0 is its own table
    (`search_circles`). -/

namespace FindPartition

open LoopRules ByteFiles Relation

/-! ## Relations without cycles -/

section Acyclic

variable {α : Type} {r : α → α → Prop} {a : α}

/-- What is accessible is on no circle. -/
theorem not_transGen_self (h : Acc (flip r) a) : ¬ TransGen r a a := by
  induction h with
  | intro a _ ih =>
      intro hcycle
      -- The second element of the cycle is on it too.
      obtain ⟨b, hab, hba⟩ := TransGen.head'_iff.mp hcycle
      exact ih b hab (TransGen.tail' hba hab)

/-- Everything that is reached from it is accessible, too. -/
theorem Acc.of_reflTransGen {b : α} (h : Acc (flip r) a) (hab : ReflTransGen r a b) :
    Acc (flip r) b := by
  induction hab with
  | refl => exact h
  | tail _ hstep ih => exact ih.inv hstep

/-- A descent through finitely many elements ends when none comes back to itself. -/
theorem acc_of_finite (hfinite : {b | ReflTransGen r a b}.Finite)
    (h : ∀ b, ReflTransGen r a b → ¬ TransGen r b b) : Acc (flip r) a := by
  have : Finite {b // ReflTransGen r a b} := hfinite
  let s : {b // ReflTransGen r a b} → {b // ReflTransGen r a b} → Prop :=
    fun x y => TransGen r y.1 x.1
  have : IsTrans _ s := ⟨fun _ _ _ hxy hyz => TransGen.trans hyz hxy⟩
  have : Std.Irrefl s := ⟨fun x hx => h x.1 x.2 hx⟩
  have hacc : ∀ x : {b // ReflTransGen r a b}, Acc (flip r) x.1 := by
    intro x
    induction x using (Finite.wellFounded_of_trans_of_irrefl s).induction with
    | _ x ih => exact ⟨x.1, fun b hb => ih ⟨b, x.2.tail hb⟩ (TransGen.single hb)⟩
  exact hacc ⟨a, ReflTransGen.refl⟩

end Acyclic

/-! ## The disk -/

/-- A disk image, and the largest offset that its file system can seek to. -/
structure Disk where
  bytes : Bytes
  size : Nat
  maxOffset : Nat

/-- `perror` or the message, then `usage`, which exits. -/
structure Exit where
  text : String
deriving DecidableEq

/-- The size of a disk sector. -/
def sectorsize : Nat := 512
/-- Where the table of partitions is in its sector. -/
def ptableOffset : Nat := 446
/-- Where the two bytes are that mark such a sector. -/
def ptableMagicOffset : Nat := 510
/-- The type of the partition that is looked for. -/
def ptypeJosKern : Nat := 0x27
/-- An extended partition, which holds a table of its own. -/
def ptypeDosExtended : Nat := 0x05
/-- Another type of extended partition. -/
def ptypeW95Extended : Nat := 0x0F
/-- A third one. -/
def ptypeLinuxExtended : Nat := 0x85

/-- An entry of a table of partitions. -/
structure Partitiondesc where
  type : Nat
  lbaStart : Nat
  lbaLength : Nat

/-- The entry `i` of the table in a sector. -/
def ptable (buf : Bytes) (i : Nat) : Partitiondesc :=
  let o := ptableOffset + 16 * i
  { type := num buf (o + 4) 1, lbaStart := num buf (o + 8) 4, lbaLength := num buf (o + 12) 4 }

/-- `readsect(buf, sectno)`, giving the buffer; the sector number is a `uint32_t`. -/
def readsect (d : Disk) (sectno : Nat) : Except Exit Bytes :=
  if d.maxOffset < sectno * sectorsize then .error ⟨"lseek"⟩
  else if d.size < sectno * sectorsize + sectorsize then .error ⟨"read"⟩
  else .ok fun p => d.bytes (sectno * sectorsize + p)

/-! ## The search -/

/-- What is left behind by a search that returns 1: the partition number it prints,
    the sector that `diskfd` is at, and `maxoff`. -/
structure Partition where
  number : Nat
  start : Nat
  maxoff : Nat

/-- Exit, or return 0 (`none`) or 1. -/
abbrev Outcome : Type := Except Exit (Option Partition)

/-- The sector is marked as one that holds a table. -/
def hasMagic (buf : Bytes) : Prop :=
  buf ptableMagicOffset = 0x55 ∧ buf (ptableMagicOffset + 1) = 0xAA

instance (buf : Bytes) : Decidable (hasMagic buf) := instDecidableAnd

/-- The partition holds a table of its own. -/
def Partitiondesc.isExtended (e : Partitiondesc) : Prop :=
  e.type = ptypeDosExtended ∨ e.type = ptypeW95Extended ∨ e.type = ptypeLinuxExtended

instance (e : Partitiondesc) : Decidable e.isExtended := instDecidableOr

/-- Use the partition of an entry. -/
def usePartition (d : Disk) (sect partoff i : Nat) (e : Partitiondesc) : Outcome :=
  if d.maxOffset < (sect + e.lbaStart) * sectorsize then .error ⟨"cannot seek to partition start"⟩
  else .ok (some { number := partoff + i + 1, start := sect + e.lbaStart
                   maxoff := e.lbaLength * sectorsize })

/-- Return what a recursive call returned if it is positive. -/
def ifPositive : Option Outcome → Option Outcome → Option Outcome
  | some (.ok none), rest => rest
  | r, _ => r

/-- `inner_sect`, the base of the tables below an extended entry. -/
def innerSect (ext : Nat) (e : Partitiondesc) : Nat := if ext = 0 then e.lbaStart else ext

/-- The loop over the last `n` entries, of which `i` is the first. -/
def search (child : Nat → Nat → Nat → Option Outcome) (d : Disk) (buf : Bytes)
    (sect ext partoff : Nat) : Nat → Nat → Option Outcome
  | 0, _ => some (.ok none)
  | n + 1, i =>
      if (ptable buf i).lbaLength = 0 then
        search child d buf sect ext partoff n (i + 1)
      else if (ptable buf i).type = ptypeJosKern then
        some (usePartition d sect partoff i (ptable buf i))
      else if (ptable buf i).isExtended then
        ifPositive
          (child ((ptable buf i).lbaStart + ext) (innerSect ext (ptable buf i))
            (if partoff ≠ 0 then partoff + 1 else 4))
          (search child d buf sect ext partoff n (i + 1))
      else search child d buf sect ext partoff n (i + 1)

/-- `find_partition(partition_sect, extended_sect, partoff)`, to a depth of recursion. -/
def findPartition (d : Disk) : Nat → Nat → Nat → Nat → Option Outcome
  | 0, _, _, _ => none
  | fuel + 1, sect, ext, partoff =>
      match readsect d (sect % 2 ^ 32) with
      | .error e => some (.error e)
      | .ok buf =>
          if ¬ hasMagic buf then some (.ok none)
          else search (findPartition d fuel) d buf sect ext partoff 4 0

/-! ## Tables and what they lead to -/

/-- A table, by its sector and the base of the tables below it. -/
abbrev Node : Type := Nat × Nat

/-- Entries of length 0 are ignored. -/
def Kernel (e : Partitiondesc) : Prop := e.lbaLength ≠ 0 ∧ e.type = ptypeJosKern

/-- An entry that leads to another table. -/
def Nested (e : Partitiondesc) : Prop := e.lbaLength ≠ 0 ∧ e.isExtended

/-- The table that an extended entry leads to. -/
def child (n : Node) (e : Partitiondesc) : Node :=
  (e.lbaStart + n.2, innerSect n.2 e)

/-- The sector of a table, if it can be read. -/
def sectorOf (d : Disk) (n : Node) : Except Exit Bytes := readsect d (n.1 % 2 ^ 32)

/-- No kernel partition is in the table or below it. -/
inductive Empty (d : Disk) : Node → Prop
  | plain (n : Node) (buf : Bytes) : sectorOf d n = .ok buf → ¬ hasMagic buf → Empty d n
  | table (n : Node) (buf : Bytes) : sectorOf d n = .ok buf →
      (∀ i, i < 4 → ¬ Kernel (ptable buf i)) →
      (∀ i, i < 4 → Nested (ptable buf i) → Empty d (child n (ptable buf i))) → Empty d n

/-- An entry that the search goes past. -/
def Passed (d : Disk) (n : Node) (buf : Bytes) (i : Nat) : Prop :=
  ¬ Kernel (ptable buf i) ∧ (Nested (ptable buf i) → Empty d (child n (ptable buf i)))

/-- The search gets from a table to the one below its entry `i`. -/
def Next (d : Disk) (n n' : Node) : Prop :=
  ∃ buf i, sectorOf d n = .ok buf ∧ hasMagic buf ∧ i < 4 ∧ (∀ j, j < i → Passed d n buf j)
    ∧ Nested (ptable buf i) ∧ n' = child n (ptable buf i)

/-- A table that the search gets to leads back to itself. -/
def Circular (d : Disk) : Prop :=
  ∃ n, ReflTransGen (Next d) (0, 0) n ∧ TransGen (Next d) n n

/-- The partition of an entry of the JOS kernel type that is not empty. -/
def Chosen (d : Disk) (start : Node) (p : Partition) : Prop :=
  ∃ n buf i, ReflTransGen (Next d) start n ∧ sectorOf d n = .ok buf ∧ hasMagic buf ∧ i < 4
    ∧ (ptable buf i).type = 0x27 ∧ (ptable buf i).lbaLength ≠ 0
    ∧ p.start = n.1 + (ptable buf i).lbaStart ∧ p.maxoff = (ptable buf i).lbaLength * 512

variable {d : Disk} {n n' : Node} {buf : Bytes} {f : Nat → Nat → Nat → Option Outcome}
  {partoff k i : Nat}

/-! ## One entry -/

/-- An entry that is neither is passed. -/
theorem search_ignored (hkernel : ¬ Kernel (ptable buf i)) (hnested : ¬ Nested (ptable buf i)) :
    search f d buf n.1 n.2 partoff (k + 1) i = search f d buf n.1 n.2 partoff k (i + 1) := by
  rw [search]
  by_cases hlength : (ptable buf i).lbaLength = 0
  · rw [if_pos hlength]
  · rw [if_neg hlength, if_neg fun htype => hkernel ⟨hlength, htype⟩,
      if_neg fun htype => hnested ⟨hlength, htype⟩]

/-- The kernel's partition is used. -/
theorem search_kernel (h : Kernel (ptable buf i)) :
    search f d buf n.1 n.2 partoff (k + 1) i
      = some (usePartition d n.1 partoff i (ptable buf i)) := by
  rw [search, if_neg h.1, if_pos h.2]

/-- The types differ. -/
theorem not_kernel_of_nested {e : Partitiondesc} (h : Nested e) : ¬ Kernel e := by
  rintro ⟨-, hkern⟩
  rcases h.2 with htype | htype | htype
  · exact absurd (hkern.symm.trans htype) (by decide)
  · exact absurd (hkern.symm.trans htype) (by decide)
  · exact absurd (hkern.symm.trans htype) (by decide)

/-- An extended entry decides, unless nothing is found below it. -/
theorem search_nested (h : Nested (ptable buf i)) :
    search f d buf n.1 n.2 partoff (k + 1) i
      = ifPositive (f (child n (ptable buf i)).1 (child n (ptable buf i)).2
          (if partoff ≠ 0 then partoff + 1 else 4))
        (search f d buf n.1 n.2 partoff k (i + 1)) := by
  rw [search, if_neg h.1, if_neg fun htype => not_kernel_of_nested h ⟨h.1, htype⟩, if_pos h.2,
    child]

theorem passed_ignored (hkernel : ¬ Kernel (ptable buf i)) (hnested : ¬ Nested (ptable buf i)) :
    Passed d n buf i :=
  ⟨hkernel, fun h => absurd h hnested⟩

/-- A table without such a partition is passed. -/
theorem passed_nested (hnested : Nested (ptable buf i))
    (hempty : Empty d (child n (ptable buf i))) : Passed d n buf i :=
  ⟨not_kernel_of_nested hnested, fun _ => hempty⟩

/-- A table all of whose entries are passed has none. -/
theorem empty_of_passed (hread : sectorOf d n = .ok buf) (h : ∀ i, i < 4 → Passed d n buf i) :
    Empty d n :=
  Empty.table n buf hread (fun i hi => (h i hi).1) (fun i hi => (h i hi).2)

theorem passed_succ (h : ∀ j, j < i → Passed d n buf j) (hi : Passed d n buf i) :
    ∀ j, j < i + 1 → Passed d n buf j := by
  intro j hj
  by_cases heq : j = i
  · exact heq ▸ hi
  · exact h j (by omega)

theorem usePartition_ne_none (d : Disk) (sect partoff i : Nat) (e : Partitiondesc) :
    usePartition d sect partoff i e ≠ .ok none := by
  intro h
  rw [usePartition] at h
  split_ifs at h
  exact Option.some_ne_none _ (Except.ok.inj h)

/-! ## The search ends only where no table leads back to itself -/

/-- The search behind the entries that are passed. -/
theorem search_of_passed {r : Outcome} (hkernel : ∀ j, i ≤ j → j < 4 → ¬ Kernel (ptable buf j))
    (hchild : ∀ j, i ≤ j → j < 4 → Nested (ptable buf j) → ∀ partoff r,
      f (child n (ptable buf j)).1 (child n (ptable buf j)).2 partoff = some r → r = .ok none)
    (hik : i + k = 4) (h : search f d buf n.1 n.2 partoff k i = some r) : r = .ok none := by
  induction k generalizing i with
  | zero => exact (Option.some.inj h).symm
  | succ k ih =>
      have hrest := ih (i := i + 1) (fun j hj => hkernel j (by omega))
        (fun j hj => hchild j (by omega)) (by omega)
      by_cases hnested : Nested (ptable buf i)
      · rw [search_nested hnested] at h
        cases hf : f (child n (ptable buf i)).1 (child n (ptable buf i)).2
            (if partoff ≠ 0 then partoff + 1 else 4) with
        | none =>
            rw [hf] at h
            cases h
        | some r' =>
            obtain rfl := hchild i (Nat.le_refl i) (by omega) hnested _ r' hf
            rw [hf] at h
            exact hrest h
      · rw [search_ignored (hkernel i (Nat.le_refl i) (by omega)) hnested] at h
        exact hrest h

/-- Where nothing is to be found, nothing is found. -/
theorem findPartition_of_empty (h : Empty d n) (fuel : Nat) {r : Outcome}
    (hr : findPartition d fuel n.1 n.2 partoff = some r) : r = .ok none := by
  induction h generalizing fuel partoff r with
  | plain n buf hread hmagic =>
      cases fuel with
      | zero => cases hr
      | succ fuel =>
          rw [findPartition, show readsect d (n.1 % 2 ^ 32) = _ from hread] at hr
          dsimp only at hr
          rw [if_pos hmagic] at hr
          exact (Option.some.inj hr).symm
  | table n buf hread hkernel hchild ih =>
      cases fuel with
      | zero => cases hr
      | succ fuel =>
          rw [findPartition, show readsect d (n.1 % 2 ^ 32) = _ from hread] at hr
          dsimp only at hr
          by_cases hmagic : hasMagic buf
          · rw [if_neg (not_not.mpr hmagic)] at hr
            exact search_of_passed (fun j _ hj => hkernel j hj)
              (fun j _ hj hnested partoff r hf => ih j hj hnested fuel hf) (Nat.zero_add 4) hr
          · rw [if_pos hmagic] at hr
            exact (Option.some.inj hr).symm

/-- A search of the entries from `i` on that ends. -/
theorem search_acc {r : Outcome}
    (hf : ∀ (m : Node) partoff r, f m.1 m.2 partoff = some r →
      (r = .ok none ↔ Empty d m) ∧ Acc (flip (Next d)) m)
    (hik : i + k = 4) (hpassed : ∀ j, j < i → Passed d n buf j)
    (h : search f d buf n.1 n.2 partoff k i = some r) :
    (r = .ok none → ∀ j, j < 4 → Passed d n buf j)
      ∧ ∀ j, i ≤ j → j < 4 → Nested (ptable buf j) → (∀ l, l < j → Passed d n buf l) →
        Acc (flip (Next d)) (child n (ptable buf j)) := by
  induction k generalizing i with
  | zero =>
      refine ⟨fun _ j hj => hpassed j (by omega), ?_⟩
      intro j hij hj
      omega
  | succ k ih =>
      have hrest := fun hpass : Passed d n buf i =>
        ih (i := i + 1) (by omega) (passed_succ hpassed hpass)
      -- an entry of the kernel's type ends the search
      by_cases hkernel : Kernel (ptable buf i)
      · rw [search_kernel hkernel] at h
        refine ⟨fun hr => absurd ((Option.some.inj h).trans hr) (usePartition_ne_none _ _ _ _ _), ?_⟩
        intro j hij hj hnested hbefore
        by_cases heq : j = i
        · exact absurd hkernel (not_kernel_of_nested (heq ▸ hnested))
        · exact absurd hkernel (hbefore i (by omega)).1
      -- below an entry of a table, the hypothesis is about the table
      by_cases hnested : Nested (ptable buf i)
      · rw [search_nested hnested] at h
        cases hchild : f (child n (ptable buf i)).1 (child n (ptable buf i)).2
            (if partoff ≠ 0 then partoff + 1 else 4) with
        | none =>
            rw [hchild] at h
            cases h
        | some r' =>
            obtain ⟨hempty, hacc⟩ := hf _ _ r' hchild
            rw [hchild] at h
            by_cases hr' : r' = .ok none
            · rw [hr'] at h
              obtain ⟨hall, hlater⟩ := hrest (passed_nested hnested (hempty.mp hr')) h
              refine ⟨hall, ?_⟩
              intro j hij hj
              by_cases heq : j = i
              · exact fun _ _ => heq ▸ hacc
              · exact hlater j (by omega) hj
            · -- something has been found below, and the search returns it
              have hsame : some r' = some r := by
                rw [← h]
                cases r' with
                | error e => rfl
                | ok p =>
                    cases p with
                    | none => exact absurd rfl hr'
                    | some p => rfl
              obtain rfl : r' = r := Option.some.inj hsame
              refine ⟨fun hr => absurd hr hr', ?_⟩
              intro j hij hj _ hbefore
              by_cases heq : j = i
              · exact heq ▸ hacc
              · -- Entry `i` is not passed, as something was found below it.
                exact absurd (hempty.mpr ((hbefore i (by omega)).2 hnested)) hr'
      · -- any other entry is passed
        have hpass : Passed d n buf i := passed_ignored hkernel hnested
        rw [search_ignored hkernel hnested] at h
        obtain ⟨hall, hlater⟩ := hrest hpass h
        refine ⟨hall, ?_⟩
        intro j hij hj hnested'
        by_cases heq : j = i
        · exact absurd (heq ▸ hnested') hnested
        · exact hlater j (by omega) hj hnested'

/-- A search that ends goes down a finite way. -/
theorem findPartition_acc (fuel : Nat) (n : Node) (partoff : Nat) (r : Outcome)
    (h : findPartition d fuel n.1 n.2 partoff = some r) :
    (r = .ok none ↔ Empty d n) ∧ Acc (flip (Next d)) n := by
  induction fuel generalizing n partoff r with
  | zero => cases h
  | succ fuel ih =>
      have hback : Empty d n → r = .ok none := fun hempty =>
        findPartition_of_empty hempty (fuel + 1) h
      rw [findPartition] at h
      cases hread : readsect d (n.1 % 2 ^ 32) with
      | error e =>
          rw [hread] at h
          obtain rfl := Option.some.inj h
          refine ⟨⟨fun hr => (nomatch hr), hback⟩, ⟨n, ?_⟩⟩
          rintro m ⟨buf, i, hbuf, -⟩
          exact absurd (hread.symm.trans hbuf) (fun heq => nomatch heq)
      | ok buf =>
          rw [hread] at h
          dsimp only at h
          by_cases hmagic : hasMagic buf
          · rw [if_neg (not_not.mpr hmagic)] at h
            obtain ⟨hall, hacc⟩ := search_acc ih (Nat.zero_add 4)
              (fun j hj => absurd hj (Nat.not_lt_zero j)) h
            refine ⟨⟨fun hr => empty_of_passed hread (hall hr), hback⟩, ⟨n, ?_⟩⟩
            rintro m ⟨buf', i, hbuf, -, hi, hbefore, hnested, rfl⟩
            obtain rfl : buf = buf' := Except.ok.inj (hread.symm.trans hbuf)
            exact hacc i (Nat.zero_le i) hi hnested hbefore
          · rw [if_pos hmagic] at h
            refine ⟨⟨fun _ => Empty.plain n buf hread hmagic, hback⟩, ⟨n, ?_⟩⟩
            rintro m ⟨buf', i, hbuf, hmagic', -⟩
            obtain rfl : buf = buf' := Except.ok.inj (hread.symm.trans hbuf)
            exact absurd hmagic' hmagic

/-! ## Where none does, it ends -/

/-- An outcome of the search of a table. -/
structure Sound (d : Disk) (n : Node) (r : Outcome) : Prop where
  none : r = .ok none → Empty d n
  some : ∀ p, r = .ok (some p) → Chosen d n p

/-- What is chosen in a nested table is chosen. -/
theorem Chosen.step {p : Partition} (hnext : Next d n n') (h : Chosen d n' p) : Chosen d n p := by
  obtain ⟨m, buf, i, hreach, hrest⟩ := h
  exact ⟨m, buf, i, ReflTransGen.head hnext hreach, hrest⟩

/-- The kernel's partition is chosen. -/
theorem usePartition_chosen {p : Partition} (hread : sectorOf d n = .ok buf)
    (hmagic : hasMagic buf) (hi : i < 4) (hkernel : Kernel (ptable buf i))
    (h : usePartition d n.1 partoff i (ptable buf i) = .ok (some p)) : Chosen d n p := by
  rw [usePartition] at h
  split_ifs at h
  obtain rfl := Option.some.inj (Except.ok.inj h)
  exact ⟨n, buf, i, ReflTransGen.refl, hread, hmagic, hi, hkernel.2, hkernel.1, rfl, rfl⟩

/-- The search of a table ends if those of the nested tables do. -/
theorem search_returns (hread : sectorOf d n = .ok buf) (hmagic : hasMagic buf)
    (hchild : ∀ m, Next d n m → ∀ partoff, ∃ r,
      Returns (fun fuel => findPartition d fuel m.1 m.2 partoff) r ∧ Sound d m r)
    (hik : i + k = 4) (hpassed : ∀ j, j < i → Passed d n buf j) :
    ∃ r, Returns (fun fuel => search (findPartition d fuel) d buf n.1 n.2 partoff k i) r
      ∧ Sound d n r := by
  induction k generalizing i with
  | zero =>
      refine ⟨.ok none, Returns.pure _, fun _ => empty_of_passed hread ?_, fun p hp => nomatch hp⟩
      exact fun j hj => hpassed j (by omega)
  | succ k ih =>
      have hrest := fun hpass : Passed d n buf i =>
        ih (i := i + 1) (by omega) (passed_succ hpassed hpass)
      -- the kernel's entry
      by_cases hkernel : Kernel (ptable buf i)
      · refine ⟨usePartition d n.1 partoff i (ptable buf i), ?_, ?_, ?_⟩
        · exact (Returns.pure _).congr fun fuel => search_kernel hkernel
        · exact fun hr => absurd hr (usePartition_ne_none _ _ _ _ _)
        · exact fun p hp => usePartition_chosen hread hmagic (by omega) hkernel hp
      -- a nested table, whose search comes first
      by_cases hnested : Nested (ptable buf i)
      · have hnext : Next d n (child n (ptable buf i)) :=
          ⟨buf, i, hread, hmagic, by omega, hpassed, hnested, rfl⟩
        obtain ⟨r, ⟨b₁, hb₁⟩, hsound⟩ := hchild _ hnext (if partoff ≠ 0 then partoff + 1 else 4)
        by_cases hr : r = .ok none
        · obtain ⟨r', ⟨b₂, hb₂⟩, hsound'⟩ := hrest (passed_nested hnested (hsound.none hr))
          refine ⟨r', ⟨b₁ + b₂, ?_⟩, hsound'⟩
          intro fuel hfuel
          dsimp only at hb₁ hb₂ ⊢
          rw [search_nested hnested, hb₁ fuel (by omega), hr]
          exact hb₂ fuel (by omega)
        · refine ⟨r, ⟨b₁, ?_⟩, fun h => absurd h hr, fun p hp => (hsound.some p hp).step hnext⟩
          intro fuel hfuel
          dsimp only at hb₁ ⊢
          rw [search_nested hnested, hb₁ fuel hfuel]
          cases r with
          | error e => rfl
          | ok p =>
              cases p with
              | none => exact absurd rfl hr
              | some p => rfl
      · -- an entry that is passed
        obtain ⟨r, hreturns, hsound⟩ := hrest (passed_ignored hkernel hnested)
        exact ⟨r, hreturns.congr fun fuel => search_ignored hkernel hnested, hsound⟩

/-- The search ends where no circle is reached. -/
theorem findPartition_returns (h : Acc (flip (Next d)) n) (partoff : Nat) :
    ∃ r, Returns (fun fuel => findPartition d fuel n.1 n.2 partoff) r ∧ Sound d n r := by
  induction h generalizing partoff with
  | intro n _ ih =>
      have hopen : ∀ (r : Outcome) (g : Nat → Option Outcome), Returns g r →
          (∀ fuel, findPartition d (fuel + 1) n.1 n.2 partoff = g fuel) →
          Returns (fun fuel => findPartition d fuel n.1 n.2 partoff) r := by
        rintro r g ⟨b, hb⟩ hg
        refine ⟨b + 1, ?_⟩
        intro fuel hfuel
        obtain ⟨m, rfl⟩ : ∃ m, fuel = m + 1 := ⟨fuel - 1, by omega⟩
        exact (hg m).trans (hb m (by omega))
      cases hread : readsect d (n.1 % 2 ^ 32) with
      | error e =>
          refine ⟨.error e, hopen _ _ (Returns.pure _) ?_, fun h => (nomatch h), fun p hp => (nomatch hp)⟩
          intro fuel
          rw [findPartition, hread]
      | ok buf =>
          by_cases hmagic : hasMagic buf
          · obtain ⟨r, hreturns, hsound⟩ := @search_returns d n buf partoff 4 0 hread hmagic
              (fun m hm partoff => ih m hm partoff) (Nat.zero_add 4)
              (fun j hj => absurd hj (Nat.not_lt_zero j))
            refine ⟨r, hopen _ _ hreturns ?_, hsound⟩
            intro fuel
            rw [findPartition, hread]
            exact if_neg (not_not.mpr hmagic)
          · refine ⟨.ok none, hopen _ _ (Returns.pure _) ?_,
              fun _ => Empty.plain n buf hread hmagic, fun p hp => nomatch hp⟩
            intro fuel
            rw [findPartition, hread]
            exact if_pos hmagic

/-! ## The search of a disk -/

/-- Sectors and bases are bounded. -/
theorem node_lt (h : ReflTransGen (Next d) (0, 0) n) : n.1 < 2 ^ 33 ∧ n.2 < 2 ^ 32 := by
  induction h with
  | refl => exact ⟨by decide, by decide⟩
  | tail _ hnext ih =>
      obtain ⟨buf, i, -, -, -, -, -, rfl⟩ := hnext
      have hstart : (ptable buf i).lbaStart < 2 ^ 32 := num_lt _ _ 4
      rw [child, innerSect]
      refine ⟨?_, ?_⟩
      · show (ptable buf i).lbaStart + _ < 2 ^ 33
        omega
      · show (if _ then (ptable buf i).lbaStart else _) < 2 ^ 32
        split_ifs
        · exact hstart
        · exact ih.2

/-- There are finitely many tables. -/
theorem nodes_finite (d : Disk) : {n | ReflTransGen (Next d) (0, 0) n}.Finite := by
  refine ((Set.finite_Iio (2 ^ 33)).prod (Set.finite_Iio (2 ^ 32))).subset ?_
  exact fun n hn => ⟨(node_lt hn).1, (node_lt hn).2⟩

/-- `find_partition(0, 0, 0)` ends, and if it returns 1 it has chosen a JOS kernel
    partition that is not empty. -/
def Meets (d : Disk) : Prop :=
  ∃ r, Returns (fun fuel => findPartition d fuel 0 0 0) r
    ∧ ∀ p, r = .ok (some p) → Chosen d (0, 0) p

/-- On a disk without circles no table leads to itself. -/
theorem not_circular_of_meets (h : Meets d) : ¬ Circular d := by
  obtain ⟨r, ⟨b, hb⟩, -⟩ := h
  rintro ⟨n, hreach, hcycle⟩
  have hacc : Acc (flip (Next d)) (0, 0) :=
    (findPartition_acc b (0, 0) 0 r (hb b (Nat.le_refl b))).2
  exact not_transGen_self (Acc.of_reflTransGen hacc hreach) hcycle

/-- **SEARCH**: it ends exactly when no table that it gets to leads back to itself,
    and what it chooses then is a kernel partition. -/
theorem search_ends_iff (d : Disk) : Meets d ↔ ¬ Circular d := by
  refine ⟨not_circular_of_meets, ?_⟩
  intro hcircular
  have hacc : Acc (flip (Next d)) (0, 0) :=
    acc_of_finite (nodes_finite d) fun n hreach hcycle => hcircular ⟨n, hreach, hcycle⟩
  obtain ⟨r, hreturns, hsound⟩ := findPartition_returns hacc 0
  exact ⟨r, hreturns, hsound.some⟩

/-- An image of one sector, whose only entry is an extended one of length 1 from
    sector 0 on. -/
def circle : Disk where
  bytes := fun p => if p = 450 then 5 else if p = 458 then 1 else if p = 510 then 0x55
    else if p = 511 then 0xAA else 0
  size := 512
  maxOffset := 2 ^ 43

/-- The table of sector 0 is the one that its entry leads to. -/
theorem search_circles : ¬ ∀ d, Meets d := by
  intro hall
  refine not_circular_of_meets (hall circle) ⟨(0, 0), ReflTransGen.refl, TransGen.single ?_⟩
  refine ⟨_, 0, rfl, ⟨by decide, by decide⟩, by decide, ?_, ⟨by decide, by decide⟩, by decide⟩
  exact fun j hj => absurd hj (Nat.not_lt_zero j)

end FindPartition
