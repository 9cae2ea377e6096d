import Cs61.ShellTokens

/-! # Token lists — what a tokenizer enumerates, and regions that end earlier

    `tokens line e s` is the list of tokens from `s` to `e`.  A sub-parser
    works on a region that ends earlier, after trailing whitespace has been
    trimmed.  `tokens_cut` says what it finds there: the same tokens, except
    that the last one may be cut off inside its own whitespace. -/

namespace TokenLists

open ShellTokens

variable {line : Line} {s e : Nat}

/-- The tokens of the line from `s` to `e`. -/
def tokens (line : Line) (e s : Nat) : List Token :=
  if _h : skipShellSpace line s e < e then
    readToken line (skipShellSpace line s e) e
      :: tokens line e (readToken line (skipShellSpace line s e) e).stop
  else []
termination_by e - s
decreasing_by
  have hs : s ≤ e := by
    by_contra hlt
    rcases skipShellSpace_cases line s e with ⟨heq, -⟩ | ⟨heq, -⟩
    · have := le_skip line isspace s e
      omega
    · omega
  have := (skipShellSpace_bounds line hs).1
  have := readToken_bounds _h (skipShellSpace_stop _h).1
  omega

/-- A token as the tokenizer reads it. -/
structure IsToken (line : Line) (e : Nat) (t : Token) : Prop where
  lt : t.start < e
  read : readToken line t.start e = t
  space : ¬ isspace (line.byte t.start) = true
  comment : line.byte t.start ≠ '#'.toUInt8

theorem IsToken.lt_stop {t : Token} (h : IsToken line e t) : t.start < t.stop := by
  have := (readToken_bounds h.lt h.space).1
  rwa [h.read] at this

theorem IsToken.stop_le {t : Token} (h : IsToken line e t) : t.stop ≤ e := by
  have := (readToken_bounds h.lt h.space).2
  rwa [h.read] at this

/-- What the tokenizer reads is a token. -/
theorem isToken_readToken (h : skipShellSpace line s e < e) :
    IsToken line e (readToken line (skipShellSpace line s e) e) := by
  obtain ⟨hspace, hcomment⟩ := skipShellSpace_stop h
  refine ⟨?_, ?_, ?_, ?_⟩ <;> rw [readToken_start]
  · exact h
  · exact hspace
  · exact hcomment

/-- Where the next token starts; the end of the region if there is none. -/
def nextStart (e : Nat) : List Token → Nat
  | [] => e
  | t :: _ => t.start

/-- There is no token, or one and the tokens after it. -/
theorem tokens_cases (line : Line) (h : s ≤ e) : (tokens line e s = [] ∧ skipShellSpace line s e = e)
    ∨ ∃ t, IsToken line e t ∧ skipShellSpace line s e = t.start ∧ s ≤ t.start
      ∧ tokens line e s = t :: tokens line e t.stop := by
  obtain ⟨hle, hend⟩ := skipShellSpace_bounds line h
  by_cases hlt : skipShellSpace line s e < e
  · refine Or.inr ⟨_, isToken_readToken hlt, (readToken_start _ e).symm, ?_, ?_⟩
    · rw [readToken_start]
      exact hle
    · rw [tokens, dif_pos hlt]
  · refine Or.inl ⟨?_, by omega⟩
    rw [tokens, dif_neg hlt]

/-- The first token starts behind the blanks. -/
theorem nextStart_tokens (line : Line) (h : s ≤ e) : nextStart e (tokens line e s) = skipShellSpace line s e := by
  rcases tokens_cases line h with ⟨hnil, hskip⟩ | ⟨t, -, hskip, -, hcons⟩
  · rw [hnil, hskip]
    rfl
  · rw [hcons, hskip]
    rfl

/-- At the end there are no tokens. -/
theorem tokens_end (line : Line) (e : Nat) : tokens line e e = [] := by
  rw [tokens, dif_neg]
  rw [skipShellSpace_end]
  exact Nat.lt_irrefl e

/-- The first token of a list, and the rest. -/
theorem tokens_inv {t : Token} {L : List Token} (h : s ≤ e) (ht : tokens line e s = t :: L) :
    IsToken line e t ∧ skipShellSpace line s e = t.start ∧ s ≤ t.start
      ∧ tokens line e t.stop = L := by
  rcases tokens_cases line h with ⟨hnil, -⟩ | ⟨t', htok, hskip, hle, hcons⟩
  · rw [hnil] at ht
    cases ht
  · rw [hcons] at ht
    obtain ⟨rfl, rfl⟩ := List.cons.inj ht
    exact ⟨htok, hskip, hle, rfl⟩

/-- The tokens depend on where the first one starts. -/
theorem tokens_skip (h : s ≤ e) : tokens line e (skipShellSpace line s e) = tokens line e s := by
  rw [tokens, skipShellSpace_idem h]
  conv_rhs => rw [tokens]

theorem IsToken.ne_other {t : Token} (h : IsToken line e t) : t.type ≠ .other := by
  rw [← h.read]
  exact readToken_ne_other h.lt h.comment

/-- What comes after a part of the tokens is the tokens from some point on. -/
theorem tokens_suffix {c L : List Token} (h : s ≤ e) (hL : tokens line e s = c ++ L) :
    ∃ s', s ≤ s' ∧ s' ≤ e ∧ tokens line e s' = L := by
  induction c generalizing s with
  | nil => exact ⟨s, Nat.le_refl s, h, hL⟩
  | cons t c ih =>
      obtain ⟨htok, -, hle, hrest⟩ := tokens_inv h hL
      obtain ⟨s', hs', hse, htok'⟩ := ih htok.stop_le hrest
      have := htok.lt_stop
      exact ⟨s', by omega, hse, htok'⟩

/-- Every member of the list is a token. -/
theorem isToken_of_mem {t : Token} (h : s ≤ e) (ht : t ∈ tokens line e s) :
    IsToken line e t ∧ s ≤ t.start := by
  obtain ⟨c, L, hL⟩ := List.append_of_mem ht
  obtain ⟨s', hs', hse, htok⟩ := tokens_suffix h hL
  obtain ⟨hist, -, hle, -⟩ := tokens_inv hse htok
  exact ⟨hist, Nat.le_trans hs' hle⟩

/-- A list of tokens that runs to the end of the region. -/
def ToEnd (line : Line) (e : Nat) (L : List Token) : Prop := ∃ s, s ≤ e ∧ tokens line e s = L

theorem ToEnd.suffix {c L : List Token} (h : ToEnd line e (c ++ L)) : ToEnd line e L := by
  obtain ⟨s, hs, hL⟩ := h
  obtain ⟨s', -, hse, htok⟩ := tokens_suffix hs hL
  exact ⟨s', hse, htok⟩

theorem ToEnd.nextStart_le {L : List Token} (h : ToEnd line e L) : nextStart e L ≤ e := by
  obtain ⟨s, hs, rfl⟩ := h
  rw [nextStart_tokens _ hs]
  exact (skipShellSpace_bounds _ hs).2

/-- The tokens from where the first one starts. -/
theorem ToEnd.tokens_eq {L : List Token} (h : ToEnd line e L) :
    tokens line e (nextStart e L) = L := by
  obtain ⟨s, hs, rfl⟩ := h
  rw [nextStart_tokens _ hs, tokens_skip hs]

/-- Behind the tokens come blanks only. -/
theorem ToEnd.skip_eq {L : List Token} (h : ToEnd line e L) :
    skipShellSpace line (nextStart e L) e = nextStart e L := by
  obtain ⟨s, hs, rfl⟩ := h
  rw [nextStart_tokens _ hs, skipShellSpace_idem hs]

theorem ToEnd.isToken {L : List Token} (h : ToEnd line e L) {t : Token} (ht : t ∈ L) :
    IsToken line e t ∧ nextStart e L ≤ t.start := by
  rw [← h.tokens_eq] at ht
  exact isToken_of_mem h.nextStart_le ht

/-- The next token comes after the tokens before it. -/
theorem ToEnd.stop_le_nextStart {t : Token} {L : List Token} (h : ToEnd line e (t :: L)) :
    t.stop ≤ nextStart e L := by
  obtain ⟨htok, -, -, hrest⟩ := tokens_inv h.nextStart_le h.tokens_eq
  rw [← hrest, nextStart_tokens _ htok.stop_le]
  exact (skipShellSpace_bounds _ htok.stop_le).1

/-- The tokens before a place end before it. -/
theorem ToEnd.chunk_le {c L : List Token} (h : ToEnd line e (c ++ L)) :
    nextStart e (c ++ L) ≤ nextStart e L ∧ ∀ t ∈ c, t.stop ≤ nextStart e L := by
  induction c with
  | nil => exact ⟨Nat.le_refl _, by rintro t ⟨⟩⟩
  | cons t c ih =>
      obtain ⟨hle, hall⟩ := ih (h.suffix (c := [t]))
      have hstop : t.stop ≤ nextStart e (c ++ L) := h.stop_le_nextStart
      have hlt := (h.isToken (t := t) List.mem_cons_self).1.lt_stop
      refine ⟨?_, ?_⟩
      · show t.start ≤ nextStart e L
        omega
      · rintro u (_ | ⟨_, hu⟩)
        · exact Nat.le_trans hstop hle
        · exact hall u hu

/-! ## Regions that end earlier -/

variable {r : Nat}

/-- A token with whitespace in it is a word. -/
theorem IsToken.normal {t : Token} (ht : IsToken line e t) {i : Nat} (hi : t.start ≤ i)
    (hlt : i < t.stop) (hspace : isspace (line.byte i) = true) : t.type = .normal := by
  rw [← ht.read] at hlt ⊢
  by_contra hne
  exact not_isspace_of_operator ht.lt hne hi hlt hspace

/-- A token whose end is trimmed: still a token of its type. -/
theorem readToken_trim {t : Token} (ht : IsToken line e t) (hr : t.start < r) (hre : r ≤ e)
    (hws : ∀ i, r ≤ i → i < t.stop → isspace (line.byte i) = true) :
    (readToken line t.start r).type = t.type ∧ (readToken line t.start r).stop = min t.stop r := by
  rcases Nat.lt_or_ge r t.stop with hlt | hge
  · have hword := ht.normal (Nat.le_of_lt hr) hlt (hws r (Nat.le_refl r) hlt)
    have := readToken_cut hr hre (by rwa [ht.read]) (by rwa [ht.read])
    rw [this.1, this.2, hword]
    exact ⟨rfl, by omega⟩
  · rw [readToken_of_le hr hre (by rwa [ht.read]), ht.read]
    exact ⟨rfl, by omega⟩

/-- There is no token in the whitespace and comment before the next token. -/
theorem tokens_gap (hs : s ≤ r) (hre : r ≤ e) (hnext : r ≤ nextStart e (tokens line e s)) :
    tokens line r s = [] := by
  have hskip := nextStart_tokens line (Nat.le_trans hs hre)
  have hcut := skipShellSpace_cut line hs hre
  rw [← hskip, Nat.min_eq_right hnext] at hcut
  rw [tokens, dif_neg (by omega)]

/-- **CUTTING A REGION** in whitespace before the next token: the tokens before
    it are read again, each from where it started. -/
theorem tokens_cut {c L : List Token} (hs : s ≤ r) (hre : r ≤ e) (hnext : r ≤ nextStart e L)
    (hws : ∀ i, r ≤ i → i < nextStart e L → isspace (line.byte i) = true)
    (hL : tokens line e s = c ++ L) (hc : ∀ t ∈ c, t.start < r) :
    tokens line r s = c.map (fun t => readToken line t.start r)
      ∧ ∀ t ∈ c, (readToken line t.start r).type = t.type
        ∧ (readToken line t.start r).stop = min t.stop r := by
  induction c generalizing s with
  | nil =>
      rw [List.nil_append] at hL
      rw [← hL] at hnext
      exact ⟨tokens_gap hs hre hnext, by rintro t ⟨⟩⟩
  | cons t c ih =>
      obtain ⟨htok, hskip, hle, hrest⟩ := tokens_inv (Nat.le_trans hs hre) hL
      have hlt := hc t List.mem_cons_self
      -- the first token starts where it did
      have hskip' : skipShellSpace line s r = t.start := by
        rw [skipShellSpace_cut _ hs hre, hskip]
        omega
      have hcons : tokens line r s
          = readToken line t.start r :: tokens line r (readToken line t.start r).stop := by
        rw [tokens, dif_pos (by omega), hskip']
      rcases Nat.lt_or_ge r t.stop with hcut | hfull
      · -- a token that is cut off is the last one
        have hnil : c = [] := by
          cases c with
          | nil => rfl
          | cons t' c =>
              have h' := (tokens_inv htok.stop_le hrest).2.2.1
              have := hc t' (List.mem_cons_of_mem t List.mem_cons_self)
              omega
        subst hnil
        have hnext' : t.stop ≤ nextStart e L :=
          ToEnd.stop_le_nextStart ⟨s, Nat.le_trans hs hre, hL⟩
        have htrim := readToken_trim htok hlt hre (fun i hi hlt => hws i hi (by omega))
        rw [Nat.min_eq_right (Nat.le_of_lt hcut)] at htrim
        rw [hcons, htrim.2, tokens_end]
        refine ⟨rfl, ?_⟩
        rintro t' (_ | ⟨_, ⟨⟩⟩)
        rw [htrim.1, htrim.2]
        exact ⟨rfl, by omega⟩
      · -- a token within the region is read as before
        have hsame : readToken line t.start r = t := by
          rw [readToken_of_le hlt hre (by rwa [htok.read]), htok.read]
        obtain ⟨hmap, hall⟩ :=
          ih hfull hrest (fun t' ht' => hc t' (List.mem_cons_of_mem t ht'))
        rw [hcons, hsame, hmap, List.map_cons, hsame]
        refine ⟨rfl, ?_⟩
        rintro t' (_ | ⟨_, ht'⟩)
        · rw [hsame]
          exact ⟨rfl, by omega⟩
        · exact hall t' ht'

end TokenLists
