import Cs61.PtIter
import Mathlib.Data.List.TakeWhile

/-! # Visiting every page-table page — the loops over a `ptiter`

    `for (ptiter it(pt); cond(it); it.next())` visits the page-table pages in
    post-order: each page exactly once and after all pages below it, and no
    call of `next` reads a page that was already visited, so that the loop body
    may free it. -/

namespace PtVisit

open PageTable PostOrder VmIter WordMasks VmWalk LoopRules PtIter
open Vmiter (doneLbits)

variable {mem : Mem} {root : Word}

/-- `for (ptiter it(pt); cond(it); it.next())`: the iterators the body sees. -/
def visit (mem : Mem) (cond : Ptiter → Bool) (pt : Word) (inner outer : Nat) :
    Option (List Ptiter) :=
  (Ptiter.new mem pt inner).bind fun m =>
    collect cond (fun it => (it.next mem inner).map Moved.it) outer m.it

/-- The pages that a list of iterators stands at. -/
def pages (mem : Mem) (L : List Ptiter) : List Word := L.map (Ptiter.pa mem)

/-! ## Visits -/

/-- From `it` on, the iteration goes through `L` and then is done. -/
inductive Visits (mem : Mem) (root : Word) : Ptiter → List Ptiter → Prop where
  | done {it : Ptiter} (lbits : it.lbits = doneLbits) (high : 2 ^ 47 ≤ it.va.toNat) :
      Visits mem root it []
  | page {it : Ptiter} {e : Nat} {r : Moved} {L : List Ptiter} (pos : At mem root e it)
      (page : table mem root (vaPath it.va (e + 1)) = some (it.pa mem))
      (next : Returns (fun fuel => it.next mem fuel) r) (va : it.va.toNat ≤ r.it.va.toNat)
      (reads : ∀ pg ∈ r.reads, pg = root ∨ pg ∈ pages mem L)
      (entry : pageOf it.pep = root ∨ pageOf it.pep ∈ pages mem L)
      (rest : Visits mem root r.it L) : Visits mem root it (it :: L)

/-- The visits are the listing that is left. -/
theorem visits_of_yields (hroot : PageAligned root) {it : Ptiter} {rest : List Word}
    (h : Yields mem root it rest) : ∃ L, Visits mem root it L ∧ pages mem L = rest := by
  induction hn : rest.length generalizing it rest with
  | zero =>
      obtain rfl := List.eq_nil_of_length_eq_zero hn
      cases h with
      | done lbits high => exact ⟨[], .done lbits high, rfl⟩
  | succ n ih =>
      cases h with
      | done lbits high => cases hn
      | @page e c pos page =>
          obtain ⟨r, hret, hy, hva, hreads⟩ := next_spec hroot pos
          obtain ⟨L, hL, hpages⟩ := ih hy (Nat.succ.inj hn)
          have hpa := pos.pa_eq page
          refine ⟨it :: L, .page pos (by rw [hpa]; exact page) hret hva ?_ ?_ hL, ?_⟩
          · rw [hpages]
            exact hreads
          · rw [hpages]
            exact pos.page_mem hroot (Nat.le_refl e)
          · rw [pages, List.map_cons, hpa]
            exact congrArg (c :: ·) hpages

/-- A loop whose condition fails at the end sees the visits that satisfy it. -/
theorem Visits.returns {it : Ptiter} {L : List Ptiter} (h : Visits mem root it L)
    {cond : Ptiter → Bool}
    (hcond : ∀ it : Ptiter, it.lbits = doneLbits → 2 ^ 47 ≤ it.va.toNat → cond it = false) :
    Returns₂ (fun inner outer =>
      collect cond (fun it => (it.next mem inner).map Moved.it) outer it) (L.takeWhile cond) := by
  induction h with
  | done lbits high => exact returns_collect_stop (hcond _ lbits high)
  | @page it e r L _ _ next _ _ _ _ ih =>
      by_cases hc : cond it = true
      · rw [List.takeWhile_cons_of_pos hc]
        exact returns_collect_step hc (next.map Moved.it) ih
      · rw [List.takeWhile_cons_of_neg hc]
        exact returns_collect_stop (Bool.eq_false_iff.mpr hc)

/-- What every visited iterator is. -/
theorem Visits.member {it : Ptiter} {L : List Ptiter} (h : Visits mem root it L) :
    ∀ v ∈ L, it.va.toNat ≤ v.va.toNat ∧ ∃ e, At mem root e v
      ∧ table mem root (vaPath v.va (e + 1)) = some (v.pa mem) := by
  induction h with
  | done _ _ =>
      intro v hv
      cases hv
  | @page it e r L pos page _ va _ _ _ ih =>
      intro v hv
      rcases List.mem_cons.mp hv with rfl | hv
      · exact ⟨Nat.le_refl _, e, pos, page⟩
      · obtain ⟨hle, hat⟩ := ih v hv
        exact ⟨Nat.le_trans va hle, hat⟩

/-- The addresses go up. -/
theorem Visits.pairwise {it : Ptiter} {L : List Ptiter} (h : Visits mem root it L) :
    L.Pairwise (fun u v => u.va.toNat ≤ v.va.toNat) := by
  induction h with
  | done _ _ => exact List.Pairwise.nil
  | page _ _ _ va _ _ rest ih =>
      refine List.Pairwise.cons ?_ ih
      intro v hv
      exact Nat.le_trans va (rest.member v hv).1

/-- At each visit, the call of `next` and the iterator itself read the root or
    pages that come later. -/
theorem Visits.split {it : Ptiter} {L : List Ptiter} (h : Visits mem root it L) :
    ∀ L₁ v L₂, L = L₁ ++ v :: L₂ → ∃ r, Returns (fun fuel => v.next mem fuel) r
      ∧ (pageOf v.pep = root ∨ pageOf v.pep ∈ pages mem L₂)
      ∧ ∀ pg ∈ r.reads, pg = root ∨ pg ∈ pages mem L₂ := by
  induction h with
  | done _ _ =>
      intro L₁ v L₂ heq
      exact absurd heq.symm (by simp)
  | @page it e r L _ _ next _ reads entry _ ih =>
      intro L₁ v L₂ heq
      cases L₁ with
      | nil =>
          obtain ⟨rfl, rfl⟩ := List.cons.inj heq
          exact ⟨r, next, entry, reads⟩
      | cons u L₁ => exact ih L₁ v L₂ (List.cons.inj heq).2

/-! ## The loops -/

/-- A visit ends when each of its moves does. -/
theorem visit_returns {cond : Ptiter → Bool} {m : Moved} {L : List Ptiter}
    (hnew : Returns (Ptiter.new mem root) m)
    (hL : Returns₂ (fun inner outer =>
      collect cond (fun it => (it.next mem inner).map Moved.it) outer m.it) L) :
    Returns₂ (visit mem cond root) L := by
  obtain ⟨n, hn⟩ := hnew
  obtain ⟨k, hk⟩ := hL
  refine ⟨n + k, ?_⟩
  intro inner outer hi ho
  rw [visit, hn inner (by omega)]
  exact hk inner outer (by omega) (by omega)

/-- The visits of a page table, for every loop condition. -/
theorem exists_visits (mem : Mem) (hroot : PageAligned root) :
    ∃ it L, Visits mem root it L ∧ pages mem L = below (child mem) 512 3 root
      ∧ ∀ cond : Ptiter → Bool,
          (∀ it : Ptiter, it.lbits = doneLbits → 2 ^ 47 ≤ it.va.toNat → cond it = false) →
          Returns₂ (visit mem cond root) (L.takeWhile cond) := by
  obtain ⟨m, hnew, hy⟩ := new_spec mem hroot
  obtain ⟨L, hL, hpages⟩ := visits_of_yields hroot hy
  exact ⟨m.it, L, hL, hpages, fun cond hcond => visit_returns hnew (hL.returns hcond)⟩

/-- No iterator of a visit is done. -/
theorem Visits.takeWhile_not_done {it : Ptiter} {L : List Ptiter} (h : Visits mem root it L) :
    L.takeWhile (fun it => !it.done) = L := by
  rw [List.takeWhile_eq_self_iff]
  intro v hv
  obtain ⟨-, e, hat, -⟩ := h.member v hv
  have hlt := hat.not_done
  rw [Ptiter.done, beq_eq_false_iff_ne.mpr (Nat.ne_of_lt hlt)]
  rfl

/-! ## The lower half -/

/-- A visited iterator is low when its page hangs off a low root entry. -/
theorem low_iff {e : Nat} {it : Ptiter} (h : At mem root e it) :
    it.va.toNat < 2 ^ 47 ↔ idxAt it.va (lbitsAt 0) < 256 := by
  have hc := h.canonical
  have hva := it.va.isLt
  rw [vaIsCanonical_iff] at hc
  rw [show lbitsAt 0 = 39 from rfl, idxAt]
  omega

/-- A loop that ends at the first page that is not low visits the pages under
    root entries 0 to 255. -/
theorem Visits.mem_low (htree : PageTree mem root) {it : Ptiter} {L : List Ptiter}
    (h : Visits mem root it L) (hpages : pages mem L = PostOrder.below (child mem) 512 3 root)
    {cond : Ptiter → Bool} (hlow : ∀ v ∈ L, cond v = true ↔ v.va.toNat < 2 ^ 47) {t : Word} :
    t ∈ pages mem (L.takeWhile cond)
      ↔ ∃ q i, i < 256 ∧ IsPath 512 2 q ∧ table mem root (q ++ [i]) = some t := by
  have hsorted : L.Pairwise (fun u v => cond v = true → cond u = true) := by
    refine h.pairwise.imp_of_mem ?_
    intro u v hu hv hle hc
    rw [hlow v hv] at hc
    rw [hlow u hu]
    omega
  rw [takeWhile_eq_filter hsorted, pages, List.mem_map]
  constructor
  · rintro ⟨v, hv, rfl⟩
    obtain ⟨hvL, hc⟩ := List.mem_filter.mp hv
    obtain ⟨-, e, hat, hpage⟩ := h.member v hvL
    obtain ⟨q, hq, heq⟩ := vaPath_root v.va e
    rw [heq] at hpage
    exact ⟨q, _, (low_iff hat).mp ((hlow v hvL).mp hc), hq.mono hat.depth, hpage⟩
  · rintro ⟨q, i, hi, hq, ht⟩
    have hpath : IsPath 512 3 (q ++ [i]) := hq.append ((IsPath.nil 0).cons (by omega))
    have hmem : t ∈ pages mem L := by
      rw [hpages, mem_below]
      exact ⟨q ++ [i], by simp, hpath, ht⟩
    obtain ⟨v, hvL, rfl⟩ := List.mem_map.mp hmem
    obtain ⟨-, e, hat, hpage⟩ := h.member v hvL
    obtain ⟨q', hq', heq⟩ := vaPath_root v.va e
    rw [heq] at hpage
    -- the page has one path only
    have hsame : q' ++ [idxAt v.va (lbitsAt 0)] = q ++ [i] := by
      refine htree.tree _ _ _ ?_ hpath hpage ht
      exact (hq'.mono hat.depth).append ((IsPath.nil 0).cons (idxAt_lt _ _))
    have hidx := List.head_eq_of_cons_eq (List.append_inj' hsame rfl).2
    refine ⟨v, List.mem_filter.mpr ⟨hvL, (hlow v hvL).mpr ((low_iff hat).mpr ?_)⟩, rfl⟩
    rw [hidx]
    exact hi

/-- What the loops that free a page table rely on. -/
structure PostOrderVisit (mem : Mem) (root : Word) (L : List Ptiter) : Prop where
  terminates : Returns₂ (visit mem (fun it => !it.done) root) L
  once : (pages mem L).Nodup
  /-- Exactly the page-table pages other than the root. -/
  complete : ∀ t, t ∈ pages mem L
    ↔ ∃ p, p ≠ [] ∧ IsPath 512 3 p ∧ table mem root p = some t
  /-- A page below another is visited before it. -/
  childrenFirst : ∀ p q t s, p ≠ [] → q ≠ [] → IsPath 512 3 (q ++ p) →
    table mem root p = some t → table mem root (q ++ p) = some s → [s, t].Sublist (pages mem L)
  /-- After a visit, neither the iterator's own entry nor what `next` reads is
      in a page visited so far. -/
  notRead : ∀ L₁ it L₂, L = L₁ ++ it :: L₂ → ∃ r, Returns (fun fuel => it.next mem fuel) r
    ∧ pageOf it.pep ∉ pages mem (L₁ ++ [it]) ∧ ∀ pg ∈ r.reads, pg ∉ pages mem (L₁ ++ [it])
  /-- With the condition `low()`: the same order, up to root entry 255. -/
  low : ∃ L', Returns₂ (visit mem Ptiter.low root) L' ∧ L' <+: L
    ∧ ∀ t, t ∈ pages mem L'
        ↔ ∃ q i, i < 256 ∧ IsPath 512 2 q ∧ table mem root (q ++ [i]) = some t

/-- **EVERY PAGE ONCE, CHILDREN FIRST, NEVER A VISITED PAGE.** -/
theorem visit_post_order (htree : PageTree mem root) : ∃ L, PostOrderVisit mem root L := by
  obtain ⟨it, L, hL, hpages, hret⟩ := exists_visits mem htree.aligned
  have hnodup : (pages mem L).Nodup := by
    rw [hpages]
    exact nodup_below (child mem) htree.tree
  have hroot : root ∉ pages mem L := by
    rw [hpages, mem_below]
    rintro ⟨q, hq, hp, hqr⟩
    exact hq (htree.tree q [] root hp (IsPath.nil 3) hqr rfl)
  refine ⟨L, ?_, hnodup, ?_, ?_, ?_, L.takeWhile Ptiter.low, ?_, List.takeWhile_prefix _, ?_⟩
  · have h := hret (fun it => !it.done) (fun it hl _ => by rw [Ptiter.done, hl]; rfl)
    rw [hL.takeWhile_not_done] at h
    exact h
  · intro t
    rw [hpages]
    exact mem_below (child mem)
  · intro p q t s hp hq hpath ht hs
    rw [table, node_append_of (child mem) ht] at hs
    rw [hpages]
    exact sublist_below (child mem) hp hq hpath ht hs
  · intro L₁ v L₂ heq
    obtain ⟨r, hr, hentry, hreads⟩ := hL.split L₁ v L₂ heq
    -- what is read comes later, and nothing comes twice
    have hlater : ∀ pg, pg = root ∨ pg ∈ pages mem L₂ → pg ∉ pages mem (L₁ ++ [v]) := by
      have hsplit : pages mem L = pages mem (L₁ ++ [v]) ++ pages mem L₂ := by
        rw [heq, pages, pages, pages, ← List.map_append, List.append_assoc]
        rfl
      rw [hsplit] at hnodup hroot
      rintro pg (rfl | hmem) hvisited
      · exact hroot (List.mem_append_left _ hvisited)
      · exact (List.nodup_append.mp hnodup).2.2 pg hvisited pg hmem rfl
    exact ⟨r, hr, hlater _ hentry, fun pg hpg => hlater pg (hreads pg hpg)⟩
  · refine hret Ptiter.low (fun it _ hhigh => ?_)
    rw [Ptiter.low, decide_eq_false_iff_not, BitVec.le_def, vaLowMax, BitVec.toNat_ofNat]
    omega
  · intro t
    refine hL.mem_low htree hpages ?_
    intro v _
    rw [Ptiter.low, decide_eq_true_iff, BitVec.le_def, vaLowMax, BitVec.toNat_ofNat]
    omega

/-- The example's tables are visited. -/
theorem visit_post_order_small : ∃ L, PostOrderVisit smallTable 0x1000#64 L :=
  visit_post_order smallTable_wellFormed.toPageTree

end PtVisit
