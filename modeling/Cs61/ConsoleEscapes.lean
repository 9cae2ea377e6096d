import Cs61.ConsoleScreen

/-! # Escape sequences — what is held back and what is put out

    `feed` is the escape buffer as a function on lists: from the bytes held
    back and the next byte to the bytes then held back and the bytes put out.
    Held back are the beginnings of escape sequences (`Partial`).

    The specifications of `putc` and `move_cursor` of a console printer are
    about any object with such a printer in it: what its virtual `putc` does
    while the buffer is flushed is a parameter. -/

namespace ConsolePrinter

open Effects LoopRules

variable {m₀ m : Machine} {p : List Byte} {c : Byte}

/-! ## The buffer as a list -/

/-- A byte of the parameters of a sequence: a digit or `;`. -/
def IsParam (c : Byte) : Prop := isdigit c = true ∨ c = 59

/-- What may be held back. -/
inductive Partial : List Byte → Prop where
  | empty : Partial []
  | escape : Partial [esc]
  | params (ps : List Byte) (hlen : ps.length ≤ 9) (hps : ∀ d ∈ ps, IsParam d) :
      Partial (esc :: 91 :: ps)

/-- The bytes held back and the bytes put out, after one more byte. -/
def feed (p : List Byte) (c : Byte) : List Byte × List Byte :=
  if p = [] ∧ c ≠ esc then ([], [c])
  else if collects (p.length + 1) c then (p ++ [c], [])
  else if c ≠ 109 then ([], p ++ [c])
  else ([], [])

/-- The bytes of an escape sequence that `c` ends without completing it. -/
def abandoned (p : List Byte) (c : Byte) : List Byte := if p = [] then [] else (feed p c).2

/-- The cases of `feed`. -/
inductive Fed (p : List Byte) (c : Byte) : Prop where
  | plain (hp : p = []) (hc : c ≠ esc) (h : feed p c = ([], [c]))
  | held (hp : ¬ (p = [] ∧ c ≠ esc)) (hcol : collects (p.length + 1) c)
      (h : feed p c = (p ++ [c], [])) (hpart : Partial (p ++ [c]))
  | dropped (hp : p ≠ []) (hcol : ¬ collects (p.length + 1) c) (hc : c ≠ 109)
      (h : feed p c = ([], p ++ [c]))
  | complete (hp : p ≠ []) (hcol : ¬ collects (p.length + 1) c) (hc : c = 109)
      (h : feed p c = ([], []))

/-- A sequence that is not complete fits in the buffer. -/
theorem Partial.length_le (h : Partial p) : p.length ≤ 11 := by
  cases h with
  | empty => exact Nat.zero_le 11
  | escape => exact (show 1 ≤ 11 by omega)
  | params ps hlen hps =>
      rw [List.length_cons, List.length_cons]
      omega

/-- What is held back with one more byte may be held back. -/
theorem Partial.collect (h : Partial p) (hp : ¬ (p = [] ∧ c ≠ esc))
    (hcol : collects (p.length + 1) c) : Partial (p ++ [c]) := by
  cases h with
  | empty =>
      have hc : c = esc := by
        by_contra hne
        exact hp ⟨rfl, hne⟩
      rw [hc]
      exact .escape
  | escape =>
      obtain h1 | ⟨-, rfl⟩ | ⟨h3, -⟩ := hcol
      · exact absurd h1 (by decide)
      · exact .params [] (Nat.zero_le 9) (fun d hd => absurd hd List.not_mem_nil)
      · exact absurd h3 (by decide)
  | params ps hlen hps =>
      obtain h1 | ⟨h2, -⟩ | ⟨-, hlt, hparam⟩ := hcol
      · rw [List.length_cons, List.length_cons] at h1
        omega
      · rw [List.length_cons, List.length_cons] at h2
        omega
      · rw [List.length_cons, List.length_cons] at hlt
        refine .params (ps ++ [c]) (by rw [List.length_append, List.length_singleton]; omega) ?_
        intro d hd
        rcases List.mem_append.mp hd with hd | hd
        · exact hps d hd
        · rw [List.mem_singleton.mp hd]
          exact hparam

/-- What one more character does to a sequence. -/
theorem feed_cases (h : Partial p) (c : Byte) : Fed p c := by
  by_cases hplain : p = [] ∧ c ≠ esc
  · exact .plain hplain.1 hplain.2 (if_pos hplain)
  by_cases hcol : collects (p.length + 1) c
  · refine .held hplain hcol ?_ (h.collect hplain hcol)
    rw [feed, if_neg hplain, if_pos hcol]
  have hp : p ≠ [] := by
    rintro rfl
    exact hcol (Or.inl rfl)
  by_cases hc : c = 109
  · refine .complete hp hcol hc ?_
    rw [feed, if_neg hplain, if_neg hcol, if_neg (not_not.mpr hc)]
  · refine .dropped hp hcol hc ?_
    rw [feed, if_neg hplain, if_neg hcol, if_pos hc]

/-- The collected characters are the start of a sequence. -/
theorem Partial.feed (h : Partial p) (c : Byte) : Partial (feed p c).1 := by
  cases feed_cases h c with
  | plain _ _ hf => rw [hf]; exact .empty
  | held _ _ hf hpart => rw [hf]; exact hpart
  | dropped _ _ _ hf => rw [hf]; exact .empty
  | complete _ _ _ hf => rw [hf]; exact .empty

/-- The bytes of a list, one after the other. -/
def feedAll : List Byte → List Byte → List Byte × List Byte
  | p, [] => (p, [])
  | p, c :: L => ((feedAll (feed p c).1 L).1, (feed p c).2 ++ (feedAll (feed p c).1 L).2)

/-- One text after the other, with the sequence that is open between them. -/
theorem feedAll_append (p L L' : List Byte) : feedAll p (L ++ L')
    = ((feedAll (feedAll p L).1 L').1, (feedAll p L).2 ++ (feedAll (feedAll p L).1 L').2) := by
  induction L generalizing p with
  | nil => rfl
  | cons c L ih =>
      rw [List.cons_append, feedAll, ih, feedAll, List.append_assoc]

/-- Parameters are held back after the beginning of a sequence. -/
theorem feedAll_params {ps qs : List Byte} (hlen : ps.length + qs.length ≤ 9)
    (hqs : ∀ d ∈ qs, IsParam d) :
    feedAll (esc :: 91 :: ps) qs = (esc :: 91 :: (ps ++ qs), []) := by
  induction qs generalizing ps with
  | nil => rw [List.append_nil, feedAll]
  | cons d qs ih =>
      rw [List.length_cons] at hlen
      have hfeed : feed (esc :: 91 :: ps) d = (esc :: 91 :: (ps ++ [d]), []) := by
        have hcol : collects ((esc :: 91 :: ps).length + 1) d := by
          refine Or.inr (Or.inr ⟨?_, ?_, hqs d List.mem_cons_self⟩)
          · rw [List.length_cons, List.length_cons]
            omega
          · rw [List.length_cons, List.length_cons]
            omega
        rw [feed, if_neg (fun h => absurd h.1 (List.cons_ne_nil _ _)), if_pos hcol]
        rfl
      rw [feedAll, hfeed, ih (by rw [List.length_append, List.length_singleton]; omega)
        (fun d hd => hqs d (List.mem_cons_of_mem _ hd)), List.append_assoc]
      rfl

/-- What is held back is held back again. -/
theorem feedAll_partial (h : Partial p) : feedAll [] p = (p, []) := by
  cases h with
  | empty => rfl
  | escape => rfl
  | params ps hlen hps =>
      have hrest := @feedAll_params [] ps (by rw [List.length_nil]; omega) hps
      rw [List.nil_append] at hrest
      have hopen : feedAll [] (esc :: 91 :: ps) = feedAll [esc, 91] ps := rfl
      rw [hopen, hrest]

/-- An abandoned sequence is abandoned again. -/
theorem feedAll_dropped (h : Partial p) (hf : feed p c = ([], p ++ [c])) :
    feedAll [] (p ++ [c]) = ([], p ++ [c]) := by
  rw [feedAll_append, feedAll_partial h, feedAll, hf, feedAll, List.append_nil, List.nil_append]

/-- An unfinished sequence, repeated, is abandoned at once. -/
theorem feedAll_twice (h : Partial p) : feedAll p p = ([], p ++ p) := by
  have hplain : ∀ L : List Byte, (∀ d ∈ L, d ≠ esc) → feedAll [] L = ([], L) := by
    intro L hL
    induction L with
    | nil => rfl
    | cons d L ih =>
        have hfeed : feed [] d = ([], [d]) := if_pos ⟨rfl, hL d List.mem_cons_self⟩
        rw [feedAll, hfeed, ih (fun d hd => hL d (List.mem_cons_of_mem _ hd))]
        rfl
  have hdrop : ∀ q : List Byte, q ≠ [] → feed q esc = ([], q ++ [esc]) := by
    intro q hq
    have hpos := List.length_pos_iff.mpr hq
    have hcol : ¬ collects (q.length + 1) esc := by
      rintro (h1 | ⟨-, h2⟩ | ⟨-, -, h3 | h3⟩)
      · omega
      · exact absurd h2 (by decide)
      · exact absurd h3 (by decide)
      · exact absurd h3 (by decide)
    rw [feed, if_neg (fun hc => hq hc.1), if_neg hcol, if_pos (by decide)]
  cases h with
  | empty => rfl
  | escape => rw [feedAll, hdrop _ (List.cons_ne_nil _ _)]; rfl
  | params ps hlen hps =>
      rw [feedAll, hdrop _ (List.cons_ne_nil _ _), hplain (91 :: ps)]
      · rw [List.append_assoc]
        rfl
      · intro d hd
        rcases List.mem_cons.mp hd with rfl | hd
        · decide
        · rintro rfl
          exact absurd (hps esc hd) (by rw [IsParam]; decide)

/-! ## The buffer in memory -/

/-- The buffer holds these bytes back. -/
def Pending (b : EscapeBuffer) (p : List Byte) : Prop :=
  b.len = p.length ∧ ∀ (k : Nat) (d : Byte), p[k]? = some d → b.buf k = d

/-- `buf_[len_] = c; ++len_`. -/
def EscapeBuffer.push (b : EscapeBuffer) (c : Byte) : EscapeBuffer :=
  { buf := Function.update b.buf b.len c, len := b.len + 1 }

/-- The same buffer with another length. -/
def EscapeBuffer.withLen (b : EscapeBuffer) (len : Int) : EscapeBuffer :=
  { buf := b.buf, len := len }

/-- One more character is collected. -/
theorem Pending.push {b : EscapeBuffer} (h : Pending b p) (c : Byte) :
    Pending (b.push c) (p ++ [c]) := by
  obtain ⟨hlen, hbuf⟩ := h
  refine ⟨?_, ?_⟩
  · rw [EscapeBuffer.push, hlen, List.length_append, List.length_singleton]
    rfl
  · intro k d hk
    show Function.update b.buf b.len c k = d
    by_cases hend : k = p.length
    · rw [hend, List.getElem?_concat_length] at hk
      rw [hend, hlen, Function.update_self]
      exact Option.some.inj hk
    · have hlt : k < p.length := by
        have := (List.getElem?_eq_some_iff.mp hk).1
        rw [List.length_append, List.length_singleton] at this
        omega
      rw [List.getElem?_append_left hlt] at hk
      rw [Function.update_of_ne (by rw [hlen]; omega)]
      exact hbuf k d hk

/-- Nothing is collected. -/
theorem Pending.nil (b : EscapeBuffer) : Pending (b.withLen 0) [] := by
  refine ⟨rfl, ?_⟩
  intro k d hk
  cases hk

section Buffer

variable {o : Holder} {self : Byte → M Unit}

/-- **FLUSH** calls the virtual `putc` for each byte. -/
theorem flush_spec {b : EscapeBuffer} {w : List Byte} (hb : Pending b w)
    (I : List Byte → Machine → Prop) (hbuf : ∀ L m, I L m → o.ebuf m = b.withLen (-1))
    (hself : ∀ d L m, I (d :: L) m → Ends (self d) m fun _ m' => I L m')
    (hm : o.ebuf m = b) (hw : w ≠ []) (hI : I w (o.setEbuf (b.withLen (-1)) m)) :
    Ends (flush o self) m fun _ m' => ∃ s, I [] s ∧ m' = o.setEbuf (b.withLen 0) s := by
  have hpos := List.length_pos_iff.mpr hw
  have hlen := hb.1
  refine Ends.bind (Ends.get ?_)
  rw [hm, if_neg (by omega)]
  refine Ends.bind (Ends.modify (Ends.bind ?_))
  rw [hm]
  refine Ends.mono (Q := fun _ s => I [] s) ?_ ?_
  · refine Ends.loop (fun (i : Int) s => I (w.drop i.toNat) s ∧ 0 ≤ i ∧ i ≤ w.length)
      (fun (i : Int) _ => (w.length - i).toNat) ?_ ⟨hI, Int.le_refl 0, Int.natCast_nonneg _⟩
    rintro i s ⟨hs, hi, hle⟩
    by_cases hend : i = b.len
    · rw [if_neg (not_not.mpr hend)]
      have hall : w.drop i.toNat = [] := List.drop_eq_nil_of_le (by omega)
      rw [hall] at hs
      exact Ends.pure (Or.inl ⟨(), rfl, hs⟩)
    · rw [if_pos hend]
      have hlt : i.toNat < w.length := by omega
      rw [List.drop_eq_getElem_cons hlt] at hs
      refine Ends.bind (Ends.get (Ends.bind ?_))
      have hbyte : (o.ebuf s).buf i = w[i.toNat] := by
        have hget := hb.2 i.toNat _ (List.getElem?_eq_getElem hlt)
        rw [hbuf _ _ hs, EscapeBuffer.withLen]
        rw [Int.toNat_of_nonneg hi] at hget
        exact hget
      rw [hbyte]
      refine (hself _ _ _ hs).mono ?_
      intro _ s' hs'
      refine Ends.pure (Or.inr ⟨i + 1, rfl, ⟨?_, by omega, by omega⟩, by omega⟩)
      rw [show (i + 1).toNat = i.toNat + 1 by omega]
      exact hs'
  · intro _ s hs
    refine Ends.modify ⟨s, hs, ?_⟩
    rw [hbuf _ _ hs]
    rfl

/-- A byte that the buffer does not look at. -/
theorem ebufPutc_pass (h : (o.ebuf m).len < 0 ∨ ((o.ebuf m).len = 0 ∧ c ≠ esc)) :
    Ends (ebufPutc o self c) m fun r m' => r = false ∧ m' = m := by
  refine Ends.bind (Ends.get ?_)
  rw [if_pos h]
  exact Ends.pure ⟨rfl, rfl⟩

/-- A byte that the buffer takes, up to the decision what to do with it. -/
theorem ebufPutc_take {b : EscapeBuffer} {Q : Bool → Machine → Prop} (hm : o.ebuf m = b)
    (hb : Pending b p) (hp : Partial p) (hne : ¬ (p = [] ∧ c ≠ esc))
    (h : Ends (if collects (p.length + 1) c then pure ()
      else if c ≠ 109 then flush o self
      else (do modify (o.setColor (parseColor (b.push c))); setLen o 0))
      (o.setEbuf (b.push c) m) fun _ m' => Q true m') :
    Ends (ebufPutc o self c) m Q := by
  have hlen := hb.1
  have hle := hp.length_le
  have hmust : ¬ ((o.ebuf m).len < 0 ∨ ((o.ebuf m).len = 0 ∧ c ≠ esc)) := by
    rw [hm, hlen]
    rintro (hneg | ⟨hzero, hc⟩)
    · omega
    · exact hne ⟨List.eq_nil_of_length_eq_zero (by omega), hc⟩
  refine Ends.bind (Ends.get ?_)
  rw [if_neg hmust]
  refine Ends.bind ?_
  refine Ends.mono (Q := fun _ m' => Q true m') ?_ fun _ _ hq => Ends.pure hq
  refine Ends.bind (Ends.get (Ends.bind (Ends.check ?_ (Ends.bind (Ends.modify ?_)))))
  · rw [hm, hlen, Bool.and_eq_true, decide_eq_true_iff, decide_eq_true_iff]
    omega
  · rw [hm]
    rw [← hlen] at h
    exact h

end Buffer

end ConsolePrinter
