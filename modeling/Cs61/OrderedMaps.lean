import Mathlib.Order.Lattice
import Mathlib.Data.List.Pairwise

/-! # Ordered maps — entries in the order of their keys

    The entries of a map come in the order of their keys, and no key has two.
    `insert` keeps an entry that is there already, `set` overwrites it.

    * `find?_eq_some` — what is found is an entry;
    * `mem_set`, `mem_erase` — the entries after an update;
    * `entries_set_new`, `entries_set_old` — and where the new one is. -/

namespace OrderedMaps

variable {K V : Type} [LinearOrder K]

/-- Entries in order, each key once. -/
structure OrdMap (K V : Type) [LinearOrder K] where
  entries : List (K × V)
  sorted : entries.Pairwise fun a b => a.1 < b.1

/-- The entry for `k` is added in its place, or overwritten. -/
def place (k : K) (v : V) : List (K × V) → List (K × V)
  | [] => [(k, v)]
  | e :: L =>
      if k < e.1 then (k, v) :: e :: L
      else if k = e.1 then (k, v) :: L
      else e :: place k v L

/-- The entries after one is placed. -/
theorem mem_place {k : K} {v : V} {e : K × V} {L : List (K × V)}
    (h : L.Pairwise fun a b => a.1 < b.1) :
    e ∈ place k v L ↔ e = (k, v) ∨ e ∈ L ∧ e.1 ≠ k := by
  induction L with
  | nil => simp [place]
  | cons d L ih =>
      obtain ⟨hhead, htail⟩ := List.pairwise_cons.mp h
      rw [place]
      split
      · rename_i hlt
        -- every key is greater
        have hne : ∀ e ∈ d :: L, e.1 ≠ k := by
          intro e he
          rcases List.mem_cons.mp he with rfl | he
          · exact ne_of_gt hlt
          · exact ne_of_gt (lt_trans hlt (hhead e he))
        rw [List.mem_cons]
        exact or_congr_right ⟨fun he => ⟨he, hne e he⟩, fun he => he.1⟩
      split
      · rename_i hnlt heq
        have hne : ∀ e ∈ L, e.1 ≠ k := fun e he => heq ▸ ne_of_gt (hhead e he)
        rw [List.mem_cons, List.mem_cons]
        constructor
        · rintro (rfl | he)
          · exact Or.inl rfl
          · exact Or.inr ⟨Or.inr he, hne e he⟩
        · rintro (rfl | ⟨rfl | he, hk⟩)
          · exact Or.inl rfl
          · exact absurd heq.symm hk
          · exact Or.inr he
      · rename_i hnlt hnek
        rw [List.mem_cons, ih htail, List.mem_cons]
        constructor
        · rintro (rfl | rfl | ⟨he, hk⟩)
          · exact Or.inr ⟨Or.inl rfl, fun hk => hnek hk.symm⟩
          · exact Or.inl rfl
          · exact Or.inr ⟨Or.inr he, hk⟩
        · rintro (rfl | ⟨rfl | he, hk⟩)
          · exact Or.inr (Or.inl rfl)
          · exact Or.inl rfl
          · exact Or.inr (Or.inr ⟨he, hk⟩)

/-- They are in order. -/
theorem sorted_place {k : K} {v : V} {L : List (K × V)}
    (h : L.Pairwise fun a b => a.1 < b.1) :
    (place k v L).Pairwise fun a b => a.1 < b.1 := by
  induction L with
  | nil => exact List.pairwise_singleton _ _
  | cons d L ih =>
      obtain ⟨hhead, htail⟩ := List.pairwise_cons.mp h
      rw [place]
      split
      · rename_i hlt
        refine List.Pairwise.cons ?_ h
        intro e he
        rcases List.mem_cons.mp he with rfl | he
        · exact hlt
        · exact lt_trans hlt (hhead e he)
      split
      · rename_i hnlt heq
        exact List.Pairwise.cons (fun e he => heq ▸ hhead e he) htail
      · rename_i hnlt hnek
        refine List.Pairwise.cons ?_ (ih htail)
        intro e he
        rcases (mem_place htail).mp he with rfl | ⟨he, -⟩
        · exact lt_of_le_of_ne (le_of_not_gt hnlt) (Ne.symm hnek)
        · exact hhead e he

/-- An entry that goes behind others. -/
theorem place_append {k : K} {v : V} {before after : List (K × V)}
    (h : ∀ e ∈ before, e.1 < k) : place k v (before ++ after) = before ++ place k v after := by
  induction before with
  | nil => rfl
  | cons d before ih =>
      have hd : d.1 < k := h d List.mem_cons_self
      rw [List.cons_append, place, if_neg (not_lt_of_gt hd), if_neg (ne_of_gt hd),
        ih fun e he => h e (List.mem_cons_of_mem _ he)]
      rfl

namespace OrdMap

/-- No entry. -/
def empty : OrdMap K V := ⟨[], List.Pairwise.nil⟩

/-- The value for a key, if it has one. -/
def find? (m : OrdMap K V) (k : K) : Option V :=
  (m.entries.find? fun e => e.1 = k).map Prod.snd

/-- `m[k] = v`. -/
def set (m : OrdMap K V) (k : K) (v : V) : OrdMap K V :=
  ⟨place k v m.entries, sorted_place m.sorted⟩

/-- An entry that is there already is kept. -/
def insert (m : OrdMap K V) (k : K) (v : V) : OrdMap K V :=
  match m.find? k with
  | none => m.set k v
  | some _ => m

/-- The map without the key. -/
def erase (m : OrdMap K V) (k : K) : OrdMap K V :=
  ⟨m.entries.filter fun e => e.1 ≠ k, m.sorted.filter _⟩

variable {m : OrdMap K V} {k : K} {v : V} {e : K × V}

/-- No key comes twice. -/
theorem keys_ne (m : OrdMap K V) : m.entries.Pairwise fun a b => a.1 ≠ b.1 :=
  m.sorted.imp fun h => ne_of_lt h

/-- The entries of one key are the same. -/
theorem entry_unique {v' : V} (h : (k, v) ∈ m.entries) (h' : (k, v') ∈ m.entries) : v = v' := by
  have : Std.Symm fun a b : K × V => a.1 ≠ b.1 := { symm := fun _ _ hne => hne.symm }
  by_contra hv
  exact m.keys_ne.forall h h' (fun heq => hv (congrArg Prod.snd heq)) rfl

/-- A key is found with its value. -/
theorem find?_eq_some : m.find? k = some v ↔ (k, v) ∈ m.entries := by
  rw [find?, Option.map_eq_some_iff]
  constructor
  · rintro ⟨e, he, rfl⟩
    obtain rfl : e.1 = k := by simpa using List.find?_some he
    exact List.mem_of_find?_eq_some he
  · intro h
    have hsome : (m.entries.find? fun e => e.1 = k).isSome := by
      rw [List.find?_isSome]
      exact ⟨(k, v), h, by simp⟩
    obtain ⟨e, he⟩ := Option.isSome_iff_exists.mp hsome
    obtain rfl : e.1 = k := by simpa using List.find?_some he
    exact ⟨e, he, entry_unique (List.mem_of_find?_eq_some he) h⟩

/-- A key is not found if there is none. -/
theorem find?_eq_none : m.find? k = none ↔ ∀ e ∈ m.entries, e.1 ≠ k := by
  simp [find?]

/-- A new key is inserted. -/
theorem insert_of_none (h : m.find? k = none) : m.insert k v = m.set k v := by
  rw [insert, h]

/-- A key that is there is left alone. -/
theorem insert_of_some {v' : V} (h : m.find? k = some v') : m.insert k v = m := by
  rw [insert, h]

/-- The entries after a value is set. -/
theorem mem_set : e ∈ (m.set k v).entries ↔ e = (k, v) ∨ e ∈ m.entries ∧ e.1 ≠ k :=
  mem_place m.sorted

/-- The entries after a key is erased. -/
theorem mem_erase : e ∈ (m.erase k).entries ↔ e ∈ m.entries ∧ e.1 ≠ k := by
  simp [erase]

/-- A new entry goes between the smaller and the greater keys. -/
theorem entries_set_new {before after : List (K × V)} (hm : m.entries = before ++ after)
    (hbefore : ∀ e ∈ before, e.1 < k) (hafter : ∀ e ∈ after, k < e.1) :
    (m.set k v).entries = before ++ (k, v) :: after := by
  show place k v m.entries = _
  rw [hm, place_append hbefore]
  cases after with
  | nil => rfl
  | cons d after => rw [place, if_pos (hafter d List.mem_cons_self)]

/-- An old entry is overwritten where it is. -/
theorem entries_set_old {v' : V} {before after : List (K × V)}
    (hm : m.entries = before ++ (k, v') :: after) :
    (m.set k v).entries = before ++ (k, v) :: after := by
  have hbefore : ∀ e ∈ before, e.1 < k := by
    have := m.sorted
    rw [hm, List.pairwise_append] at this
    exact fun e he => this.2.2 e he (k, v') List.mem_cons_self
  show place k v m.entries = _
  rw [hm, place_append hbefore, place, if_neg (lt_irrefl k), if_pos rfl]

end OrdMap

end OrderedMaps
