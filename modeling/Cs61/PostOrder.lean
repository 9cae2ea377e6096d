import Mathlib.Data.List.Nodup
import Mathlib.Data.List.Basic
import Mathlib.Data.List.Pairwise

/-! # Trees given by a child function — paths, post-order, cursors

    A tree is presented as nodes with numbered child slots: `child t i` is the
    node in slot `i` of `t`, if any.  Nothing forces such a graph to be a tree;
    `IsTree` says that no node is reached by two paths.

    * `node root p` — the node at a path.  Paths are written innermost slot
      first, so `i :: p` is slot `i` of the node at `p`;
    * `below d t` — the proper descendants of `t` within `d` levels, each node
      after everything below it;
    * `after D root p` — the part of `below D root` that follows the subtree at
      slot `p`: what a traversal standing at `p` still has to list. -/

namespace PostOrder

variable {N : Type} (child : N → Nat → Option N) (width : Nat)

/-! ## Paths -/

/-- The node at a path from `root`, innermost slot first. -/
def node (root : N) : List Nat → Option N
  | [] => some root
  | i :: p => (node root p).bind (fun t => child t i)

/-- Paths of at most `depth` slots, all within the width. -/
def IsPath (depth : Nat) (p : List Nat) : Prop :=
  p.length ≤ depth ∧ ∀ i ∈ p, i < width

/-- No node is reached by two paths. -/
def IsTree (depth : Nat) (root : N) : Prop :=
  ∀ p q t, IsPath width depth p → IsPath width depth q →
    node child root p = some t → node child root q = some t → p = q

@[simp] theorem node_nil (root : N) : node child root [] = some root := rfl

/-- One step further down. -/
theorem node_cons (root : N) (i : Nat) (p : List Nat) :
    node child root (i :: p) = (node child root p).bind (fun t => child t i) := rfl

theorem node_cons_of {root t : N} {p : List Nat} (h : node child root p = some t) (i : Nat) :
    node child root (i :: p) = child t i := by
  rw [node_cons, h]
  rfl

/-- A path below a path is a path. -/
theorem node_append (root : N) (q p : List Nat) :
    node child root (q ++ p) = (node child root p).bind (fun t => node child t q) := by
  induction q with
  | nil =>
      show node child root p = (node child root p).bind some
      cases node child root p <;> rfl
  | cons i q ih =>
      rw [List.cons_append, node_cons, ih]
      cases node child root p <;> rfl

theorem node_append_of {root t : N} {p : List Nat} (h : node child root p = some t)
    (q : List Nat) : node child root (q ++ p) = node child t q := by
  rw [node_append, h]
  rfl

/-- Nodes on the way to a node exist. -/
theorem node_tail {root c : N} {i : Nat} {p : List Nat}
    (h : node child root (i :: p) = some c) :
    ∃ t, node child root p = some t ∧ child t i = some c := by
  rw [node_cons] at h
  cases hp : node child root p with
  | none => rw [hp] at h; cases h
  | some t => rw [hp] at h; exact ⟨t, rfl, h⟩

variable {width}

theorem IsPath.nil (depth : Nat) : IsPath width depth [] :=
  ⟨Nat.zero_le _, fun _ hi => nomatch hi⟩

theorem IsPath.cons {depth i : Nat} {p : List Nat} (hp : IsPath width depth p)
    (hi : i < width) : IsPath width (depth + 1) (i :: p) := by
  refine ⟨Nat.succ_le_succ hp.1, ?_⟩
  intro j hj
  rcases List.mem_cons.mp hj with heq | hmem
  · exact heq ▸ hi
  · exact hp.2 j hmem

theorem IsPath.tail {depth i : Nat} {p : List Nat} (h : IsPath width depth (i :: p)) :
    IsPath width depth p :=
  ⟨Nat.le_of_succ_le h.1, fun j hj => h.2 j (List.mem_cons_of_mem _ hj)⟩

/-- A path fits below any greater depth. -/
theorem IsPath.mono {d e : Nat} {p : List Nat} (h : IsPath width d p) (hde : d ≤ e) :
    IsPath width e p :=
  ⟨Nat.le_trans h.1 hde, h.2⟩

/-- Paths compose. -/
theorem IsPath.append {d e : Nat} {q p : List Nat} (hq : IsPath width d q)
    (hp : IsPath width e p) : IsPath width (d + e) (q ++ p) := by
  refine ⟨?_, ?_⟩
  · rw [List.length_append]
    exact Nat.add_le_add hq.1 hp.1
  · intro j hj
    rcases List.mem_append.mp hj with h | h
    · exact hq.2 j h
    · exact hp.2 j h

/-- A subtree of a tree is a tree. -/
theorem IsTree.sub {depth i : Nat} {root c : N} (h : IsTree child width (depth + 1) root)
    (hi : i < width) (hc : child root i = some c) : IsTree child width depth c := by
  have hnode : node child root [i] = some c := hc
  have hone : IsPath width 1 [i] := (IsPath.nil 0).cons hi
  intro p q t hp hq htp htq
  have happ : p ++ [i] = q ++ [i] :=
    h _ _ t (hp.append hone) (hq.append hone)
      (by rw [node_append_of child hnode]; exact htp)
      (by rw [node_append_of child hnode]; exact htq)
  exact List.append_cancel_right happ

/-- Unique parents, and a root that is nobody's child, make a tree. -/
theorem isTree_of_unique_parent {depth : Nat} {root : N} (S : N → Prop) (hroot : S root)
    (hclosed : ∀ t i c, S t → i < width → child t i = some c → S c ∧ c ≠ root)
    (hparent : ∀ t t' i i' c, S t → S t' → i < width → i' < width →
      child t i = some c → child t' i' = some c → t = t' ∧ i = i') :
    IsTree child width depth root := by
  -- every node is in `S`
  have hS : ∀ p t, (∀ i ∈ p, i < width) → node child root p = some t → S t := by
    intro p
    induction p with
    | nil => intro t _ h; exact Option.some.inj h ▸ hroot
    | cons i p ih =>
        intro t hp h
        obtain ⟨s, hs, hc⟩ := node_tail child h
        have hp' : ∀ j ∈ p, j < width := fun j hj => hp j (List.mem_cons_of_mem _ hj)
        exact (hclosed s i t (ih s hp' hs) (hp i List.mem_cons_self) hc).1
  -- by induction on the first path; the last steps agree
  intro p
  induction p with
  | nil =>
      intro q t _ hq hp htq
      -- the root is nobody's child
      obtain rfl := Option.some.inj hp
      cases q with
      | nil => rfl
      | cons j q =>
          obtain ⟨s, hs, hc⟩ := node_tail child htq
          have hs' := hS q s hq.tail.2 hs
          exact absurd rfl (hclosed s j _ hs' (hq.2 j List.mem_cons_self) hc).2
  | cons i p ih =>
      intro q t hp hq htp htq
      obtain ⟨s, hs, hc⟩ := node_tail child htp
      have hs' := hS p s hp.tail.2 hs
      cases q with
      | nil =>
          obtain rfl := Option.some.inj htq
          exact absurd rfl (hclosed s i _ hs' (hp.2 i List.mem_cons_self) hc).2
      | cons j q =>
          obtain ⟨r, hr, hc'⟩ := node_tail child htq
          obtain ⟨rfl, rfl⟩ := hparent s r i j t hs' (hS q r hq.tail.2 hr)
            (hp.2 i List.mem_cons_self) (hq.2 j List.mem_cons_self) hc hc'
          rw [ih q s hp.tail hq.tail hs hr]

/-! ## Post-order -/

variable (width)

/-- The proper descendants of `t` within `d` levels, in post-order. -/
def below : Nat → N → List N
  | 0, _ => []
  | d + 1, t => (List.range width).flatMap (fun i =>
      match child t i with
      | none => []
      | some c => below d c ++ [c])

/-- What one slot contributes: its subtree, then its node. -/
def listed (d : Nat) : Option N → List N
  | none => []
  | some c => below child width d c ++ [c]

/-- What the slots from `i` on contribute. -/
def listedFrom (d : Nat) (t : N) (i : Nat) : List N :=
  ((List.range width).drop i).flatMap (fun j => listed child width d (child t j))

@[simp] theorem listed_some (d : Nat) (c : N) :
    listed child width d (some c) = below child width d c ++ [c] := rfl

/-- The nodes below, child by child. -/
theorem below_succ (d : Nat) (t : N) :
    below child width (d + 1) t
      = (List.range width).flatMap (fun i => listed child width d (child t i)) := by
  rw [below]
  refine List.flatMap_congr ?_
  intro i _
  cases child t i <;> rfl

/-- The nodes below, as the children from the first on. -/
theorem below_eq_listedFrom (d : Nat) (t : N) :
    below child width (d + 1) t = listedFrom child width d t 0 := by
  rw [below_succ, listedFrom, List.drop_zero]

theorem listedFrom_lt {d i : Nat} (t : N) (h : i < width) :
    listedFrom child width d t i
      = listed child width d (child t i) ++ listedFrom child width d t (i + 1) := by
  have hlen : i < (List.range width).length := by rw [List.length_range]; exact h
  rw [listedFrom, List.drop_eq_getElem_cons hlen, List.getElem_range, List.flatMap_cons]
  rfl

theorem listedFrom_ge {d i : Nat} (t : N) (h : width ≤ i) :
    listedFrom child width d t i = [] := by
  rw [listedFrom, List.drop_eq_nil_of_le (by rw [List.length_range]; exact h)]
  rfl

variable {width}

/-- **MEMBERSHIP**: exactly the nodes at non-empty paths within the depth. -/
theorem mem_below {d : Nat} {t c : N} :
    c ∈ below child width d t
      ↔ ∃ q, q ≠ [] ∧ IsPath width d q ∧ node child t q = some c := by
  induction d generalizing t with
  | zero =>
      constructor
      · intro h; cases h
      · rintro ⟨q, hq, hp, -⟩
        exact absurd (List.eq_nil_of_length_eq_zero (Nat.le_zero.mp hp.1)) hq
  | succ d ih =>
      rw [below_succ]
      -- a path of the subtree gets the index of the child behind it
      constructor
      · intro h
        obtain ⟨i, hi, hc⟩ := List.mem_flatMap.mp h
        have hi' : i < width := List.mem_range.mp hi
        cases hch : child t i with
        | none => rw [hch] at hc; cases hc
        | some b =>
            rw [hch] at hc
            have hnode : node child t [i] = some b := hch
            rcases List.mem_append.mp hc with hsub | hself
            · obtain ⟨q, -, hp, hqc⟩ := ih.mp hsub
              refine ⟨q ++ [i], by simp, hp.append ((IsPath.nil 0).cons hi'), ?_⟩
              rw [node_append_of child hnode]
              exact hqc
            · rw [List.mem_singleton.mp hself]
              exact ⟨[i], by simp, ((IsPath.nil 0).cons hi').mono (by omega), hnode⟩
      · -- the last index of a path names the child
        rintro ⟨q, hq, hp, hc⟩
        rcases List.eq_nil_or_concat q with hnil | ⟨q', i, rfl⟩
        · exact absurd hnil hq
        · rw [List.concat_eq_append] at hp hc
          have hi : i < width := hp.2 i (by simp)
          refine List.mem_flatMap.mpr ⟨i, List.mem_range.mpr hi, ?_⟩
          rw [node_append] at hc
          cases hch : child t i with
          | none =>
              rw [show node child t [i] = none from hch] at hc
              cases hc
          | some b =>
              rw [show node child t [i] = some b from hch] at hc
              have hc' : node child b q' = some c := hc
              by_cases hq' : q' = []
              · subst hq'
                have hbc : b = c := Option.some.inj hc'
                rw [hbc]
                exact List.mem_append.mpr (Or.inr (List.mem_singleton.mpr rfl))
              · refine List.mem_append.mpr (Or.inl (ih.mpr ⟨q', hq', ?_, hc'⟩))
                refine ⟨?_, fun j hj => hp.2 j (by simp [hj])⟩
                have hlen := hp.1
                rw [List.length_append, List.length_singleton] at hlen
                omega

/-- What a subtree lists. -/
theorem mem_listed {d : Nat} {o : Option N} {c : N} :
    c ∈ listed child width d o
      ↔ ∃ b, o = some b ∧ ∃ q, IsPath width d q ∧ node child b q = some c := by
  cases o with
  | none =>
      constructor
      · intro h; cases h
      · rintro ⟨b, hb, -⟩; cases hb
  | some b =>
      rw [listed_some, List.mem_append, mem_below, List.mem_singleton]
      constructor
      · rintro (⟨q, -, hp, hc⟩ | rfl)
        · exact ⟨b, rfl, q, hp, hc⟩
        · exact ⟨c, rfl, [], IsPath.nil d, rfl⟩
      · rintro ⟨b', hb', q, hp, hc⟩
        obtain rfl := Option.some.inj hb'
        by_cases hq : q = []
        · subst hq
          exact Or.inr (Option.some.inj hc).symm
        · exact Or.inl ⟨q, hq, hp, hc⟩

/-- **EXACTLY ONCE**: over a tree the listing has no repetition. -/
theorem nodup_below {d : Nat} {t : N} (h : IsTree child width d t) :
    (below child width d t).Nodup := by
  induction d generalizing t with
  | zero => exact List.nodup_nil
  | succ d ih =>
      rw [below_succ, List.nodup_flatMap]
      refine ⟨?_, ?_⟩
      · intro i hi
        have hi' : i < width := List.mem_range.mp hi
        cases hch : child t i with
        | none => exact List.nodup_nil
        | some c =>
            have hsub := h.sub child hi' hch
            rw [listed_some, List.nodup_append]
            refine ⟨ih hsub, List.nodup_singleton c, ?_⟩
            -- `c` is at the empty path of its own subtree, not at a longer one
            intro a ha b hb hab
            rw [List.mem_singleton.mp hb] at hab
            obtain ⟨q, hq, hp, hqa⟩ := (mem_below child).mp ha
            rw [hab] at hqa
            exact hq (hsub q [] c hp (IsPath.nil d) hqa rfl)
      · -- a node in two slots would have two paths
        refine List.Pairwise.imp_of_mem ?_ List.nodup_range
        intro i j hi hj hij c hci hcj
        obtain ⟨b, hb, q, hp, hqc⟩ := (mem_listed child).mp hci
        obtain ⟨b', hb', q', hp', hqc'⟩ := (mem_listed child).mp hcj
        have happ : q ++ [i] = q' ++ [j] := by
          refine h _ _ c
            (hp.append ((IsPath.nil 0).cons (List.mem_range.mp hi)))
            (hp'.append ((IsPath.nil 0).cons (List.mem_range.mp hj))) ?_ ?_
          · rw [node_append_of child (show node child t [i] = some b from hb)]
            exact hqc
          · rw [node_append_of child (show node child t [j] = some b' from hb')]
            exact hqc'
        have hlast := (List.append_inj' happ rfl).2
        exact hij (List.head_eq_of_cons_eq hlast)

/-- **DESCENDANTS FIRST**: a node below `a` is listed before `a`. -/
theorem sublist_below {d : Nat} {t a b : N} {p q : List Nat}
    (hp : p ≠ []) (hq : q ≠ []) (hpath : IsPath width d (q ++ p))
    (ha : node child t p = some a) (hb : node child a q = some b) :
    [b, a].Sublist (below child width d t) := by
  induction d generalizing t p with
  | zero =>
      have := hpath.1
      have hp0 : p.length = 0 := by rw [List.length_append] at this; omega
      exact absurd (List.eq_nil_of_length_eq_zero hp0) hp
  | succ d ih =>
      rcases List.eq_nil_or_concat p with hnil | ⟨p', i, rfl⟩
      · exact absurd hnil hp
      rw [List.concat_eq_append] at ha hpath
      have hi : i < width := hpath.2 i (by simp)
      -- the path goes through the child that its last index names
      have hrest : IsPath width d (q ++ p') := by
        refine ⟨?_, fun j hj => hpath.2 j ?_⟩
        · have hlen := hpath.1
          simp only [List.length_append, List.length_singleton] at hlen ⊢
          omega
        · rcases List.mem_append.mp hj with h | h <;> simp [h]
      rw [node_append] at ha
      obtain ⟨c, hc⟩ : ∃ c, child t i = some c := by
        cases hch : child t i with
        | none => rw [show node child t [i] = none from hch] at ha; cases ha
        | some c => exact ⟨c, rfl⟩
      rw [show node child t [i] = some c from hc] at ha
      have ha' : node child c p' = some a := ha
      -- the child's part of the list is in the list
      have hslot : (listed child width d (child t i)).Sublist
          (below child width (d + 1) t) := by
        rw [below_succ]
        exact List.sublist_flatten_of_mem
          (List.mem_map.mpr ⟨i, List.mem_range.mpr hi, rfl⟩)
      refine List.Sublist.trans ?_ hslot
      rw [hc, listed_some]
      by_cases hp' : p' = []
      · subst hp'
        obtain rfl : c = a := Option.some.inj ha'
        have hmem : b ∈ below child width d c :=
          (mem_below child).mpr ⟨q, hq, by simpa using hrest, hb⟩
        exact List.Sublist.append (List.singleton_sublist.mpr hmem) (List.Sublist.refl [c])
      · exact (ih hp' hrest ha').trans (List.sublist_append_left _ _)

/-! ## Cursors -/

variable (width)

/-- What follows slot `p` in the post-order of `root`, `D` levels deep: the
    later slots of the same node, then the node itself, and so on upwards. -/
def after (D : Nat) (root : N) : List Nat → List N
  | [] => []
  | i :: p =>
      match node child root p with
      | none => after D root p
      | some t =>
          listedFrom child width (D - p.length - 1) t (i + 1)
            ++ (if p = [] then [] else [t]) ++ after D root p

/-- What comes after a node: its younger siblings, its parent, and what comes after that. -/
theorem after_cons {D : Nat} {root t : N} {p : List Nat} (i : Nat)
    (h : node child root p = some t) :
    after child width D root (i :: p)
      = listedFrom child width (D - p.length - 1) t (i + 1)
          ++ (if p = [] then [] else [t]) ++ after child width D root p := by
  rw [after, h]

/-- The whole listing, seen from the first slot. -/
theorem below_eq_after {D : Nat} (root : N) (hw : 0 < width) :
    below child width (D + 1) root
      = listed child width D (child root 0) ++ after child width (D + 1) root [0] := by
  rw [below_eq_listedFrom, listedFrom_lt child width root hw,
    after_cons child width 0 (node_nil child root)]
  simp [after]

/-- Moving to the next slot of the same node. -/
theorem after_next {D i : Nat} {root t : N} {p : List Nat}
    (h : node child root p = some t) (hi : i + 1 < width) :
    after child width D root (i :: p)
      = listed child width (D - p.length - 1) (child t (i + 1))
          ++ after child width D root ((i + 1) :: p) := by
  rw [after_cons child width i h, after_cons child width (i + 1) h,
    listedFrom_lt child width t hi]
  simp only [List.append_assoc]

/-- Past the last slot of a node comes the node itself. -/
theorem after_up {D i : Nat} {root t : N} {p : List Nat}
    (h : node child root p = some t) (hi : width ≤ i + 1) (hp : p ≠ []) :
    after child width D root (i :: p) = t :: after child width D root p := by
  rw [after_cons child width i h, listedFrom_ge child width t hi, if_neg hp]
  rfl

/-- The nodes on the way to a slot follow everything below that slot. -/
theorem mem_after {D : Nat} {root t : N} {p q : List Nat} (hq : q ≠ []) (hsuf : q <:+ p)
    (hlen : q.length < p.length) (ht : node child root q = some t) :
    t ∈ after child width D root p := by
  induction p with
  | nil => exact absurd hlen (Nat.not_lt_zero _)
  | cons i p ih =>
      have hsuf' : q <:+ p := by
        rcases List.suffix_cons_iff.mp hsuf with heq | h
        · rw [heq] at hlen
          exact absurd hlen (Nat.lt_irrefl _)
        · exact h
      by_cases hqp : q = p
      · subst hqp
        rw [after_cons child width i ht, if_neg hq]
        exact List.mem_append_left _ (List.mem_append_right _ List.mem_cons_self)
      · have hlt : q.length < p.length := by
          refine Nat.lt_of_le_of_ne hsuf'.length_le ?_
          intro hl
          exact hqp (hsuf'.eq_of_length hl)
        have hmem := ih hsuf' hlt
        rw [after]
        split
        · exact hmem
        · exact List.mem_append_right _ hmem

/-- Past the last slot of the root nothing is left. -/
theorem after_root {D i : Nat} {root : N} (hi : width ≤ i + 1) :
    after child width D root [i] = [] := by
  rw [after_cons child width i (node_nil child root), listedFrom_ge child width root hi]
  rfl

/-- Descending to the first slot below. -/
theorem listed_descend {D i : Nat} {root c : N} {p : List Nat}
    (hc : node child root (i :: p) = some c) (hw : 0 < width) (hD : p.length + 1 < D) :
    listed child width (D - p.length - 1) (some c) ++ after child width D root (i :: p)
      = listed child width (D - (i :: p).length - 1) (child c 0)
          ++ after child width D root (0 :: i :: p) := by
  have hlev : D - p.length - 1 = (D - (i :: p).length - 1) + 1 := by
    rw [List.length_cons]; omega
  rw [hlev, listed_some, below_eq_listedFrom, listedFrom_lt child width c hw,
    after_cons child width 0 hc]
  simp only [List.append_assoc, reduceCtorEq, if_false]

end PostOrder
