import Cs61.VmRanges
import Cs61.VmRuns

/-! # `find` — moving to an address

    `find(va)` does nothing when the iterator is at `va` already.  An iterator
    that is done is at address 0, so that `find(0)` leaves it done; every other
    `find` gives what the constructor gives (`find_iff`). -/

namespace VmFind

open PageTable PostOrder VmIter WordMasks VmWalk VmQueries VmRuns VmRanges

variable {mem : Mem} {root : Word}

/-- The states that calls lead to, after the construction of an iterator on a
    well-formed page table. -/
def Reached (root : Word) (s : State) : Prop :=
  ∃ mem₀ va₀ it₀ ops, WellFormed mem₀ root ∧ Vmiter.new mem₀ root va₀ = .ok it₀
    ∧ Run root { mem := mem₀, it := it₀ } ops s

/-- The invariant of the iterators that the code can reach. -/
theorem Reached.inv {s : State} (h : Reached root s) : Inv root s := by
  obtain ⟨mem₀, va₀, it₀, ops, hwf, hit, hrun⟩ := h
  exact (hrun.inv ⟨hwf.toPageTree, new_coherent hwf.aligned hit⟩).1

/-- A new iterator is reached. -/
theorem Reached.new {va : Word} {it : Vmiter} (hwf : WellFormed mem root)
    (hit : Vmiter.new mem root va = .ok it) : Reached root { mem := mem, it := it } :=
  ⟨mem, va, it, [], hwf, hit, .start⟩

/-- An iterator that is not done has walked to its address. -/
theorem Reached.walked {s : State} (h : Reached root s) (hd : s.it.done = false) :
    Walked s.mem root s.it :=
  Coherent.walked h.inv.coherent hd

/-- Both iterators answer the same queries in the same way. -/
structure SameAnswers (mem : Mem) (it w : Vmiter) : Prop where
  va : it.va = w.va
  pa : it.pa mem = w.pa mem
  perm : it.perms mem = w.perms mem
  lastVa : it.lastVa = w.lastVa

theorem SameAnswers.refl (mem : Mem) (it : Vmiter) : SameAnswers mem it it :=
  ⟨rfl, rfl, rfl, rfl⟩

/-- `find` from a walked iterator gives the walk to the address. -/
theorem Walked.find {it : Vmiter} {va : Word} (hwf : WellFormed mem root)
    (h : Walked mem root it) : it.find mem va = .ok (fresh mem root va) := by
  rw [Vmiter.find]
  by_cases hva : va = it.va
  · rw [if_neg (by rw [bne_iff_ne, not_not]; exact hva), hva, ← h.eq_fresh hwf.aligned]
  · rw [if_pos (by rw [bne_iff_ne]; exact hva), findImpl_eq hwf.aligned (Or.inl h) rfl]
    exact new_ok hwf.aligned hwf.low va

/-- At the end of the iteration only address 0 is not searched for. -/
theorem ended_find {va : Word} (hwf : WellFormed mem root) :
    (ended root).find mem va = .ok (if va = 0#64 then ended root else fresh mem root va) := by
  rw [Vmiter.find]
  by_cases hva : va = 0#64
  · rw [if_pos hva, if_neg (by rw [bne_iff_ne, not_not]; exact hva)]
  · rw [if_neg hva, if_pos (by rw [bne_iff_ne]; exact hva), findImpl_eq hwf.aligned (Or.inr rfl) rfl]
    exact new_ok hwf.aligned hwf.low va

/-- **FIND**: the iterator is not done and answers as a new one does, unless
    it is done before and the address is 0. -/
theorem find_iff {s : State} (hwf : WellFormed s.mem root) (h : Reached root s) (va : Word) :
    (∃ it w, s.it.find s.mem va = .ok it ∧ Vmiter.new s.mem root va = .ok w
        ∧ it.done = false ∧ SameAnswers s.mem it w)
      ↔ ¬ (s.it.done = true ∧ va = 0#64) := by
  have hnew := new_ok hwf.aligned hwf.low va
  have hfresh := Walked.not_done (@fresh_walked s.mem root hwf.aligned va).1
  constructor
  · rintro ⟨it, w, hfind, -, hnd, -⟩ ⟨hd, rfl⟩
    rcases h.inv.coherent with hw | hended
    · rw [Walked.not_done hw] at hd
      cases hd
    · rw [hended, ended_find hwf, if_pos rfl] at hfind
      obtain rfl := Except.ok.inj hfind
      cases hnd
  · intro hno
    rcases h.inv.coherent with hw | hended
    · exact ⟨_, _, Walked.find hwf hw, hnew, hfresh, SameAnswers.refl _ _⟩
    · have hva : va ≠ 0#64 := fun hva => hno ⟨by rw [hended]; rfl, hva⟩
      have hfind := @ended_find s.mem root va hwf
      rw [if_neg hva, ← hended] at hfind
      exact ⟨_, _, hfind, hnew, hfresh, SameAnswers.refl _ _⟩

/-- An iterator in a 2 MiB page that goes to the non-canonical addresses. -/
theorem find_iff_small :
    ∃ it₀, Vmiter.new smallTable 0x1000#64 0x200123#64 = .ok it₀
      ∧ ((∃ it w, it₀.find smallTable 0x800000000000#64 = .ok it
            ∧ Vmiter.new smallTable 0x1000#64 0x800000000000#64 = .ok w
            ∧ it.done = false ∧ SameAnswers smallTable it w)
          ↔ ¬ (it₀.done = true ∧ 0x800000000000#64 = 0#64)) := by
  have hwf := smallTable_wellFormed
  exact ⟨_, new_ok hwf.aligned hwf.low _,
    find_iff hwf (Reached.new hwf (new_ok hwf.aligned hwf.low _)) _⟩

/-- The iteration ends at the last page, and `find(0)` leaves it ended. -/
theorem find_zero_stays_done :
    ∃ s, Reached 0x1000#64 s ∧ WellFormed s.mem 0x1000#64
      ∧ ¬ ∃ it w, s.it.find s.mem 0#64 = .ok it ∧ Vmiter.new s.mem 0x1000#64 0#64 = .ok w
          ∧ it.done = false ∧ SameAnswers s.mem it w := by
  have hwf := smallTable_wellFormed
  obtain ⟨it₀, hit, hd, hnext⟩ :
      ∃ it₀, Vmiter.new smallTable 0x1000#64 0xFFFFFFFFFFFFF000#64 = .ok it₀
        ∧ it₀.done = false ∧ it₀.next smallTable = .ok (ended 0x1000#64) := ⟨_, rfl, rfl, rfl⟩
  have hrun : Run 0x1000#64 { mem := smallTable, it := it₀ } [.next]
      { mem := smallTable, it := ended 0x1000#64 } :=
    .call .next .start hd (by rw [Op.call, hnext]; rfl)
  have hreached : Reached 0x1000#64 { mem := smallTable, it := ended 0x1000#64 } :=
    ⟨smallTable, _, it₀, [.next], hwf, hit, hrun⟩
  refine ⟨_, hreached, hwf, ?_⟩
  rw [find_iff hwf hreached, not_not]
  exact ⟨rfl, rfl⟩

end VmFind
