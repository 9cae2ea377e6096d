import Cs61.ConsoleSafety

/-! # The log copy of an error message

    An error printer sends a message to the console and to the log.  When the
    console printer in it abandons an escape sequence, it puts the bytes out by
    the virtual `putc`, which sends them to the log once more; so does
    `move_cursor` with an unfinished sequence.  The log gets what a log printer
    would send exactly when no sequence of the message is abandoned or left
    unfinished (`errorLog_eq_iff`). -/

namespace ConsolePrinter

open Effects

variable {m : Machine} {p : List Byte} {c : Byte}

/-! ## Messages without broken sequences -/

/-- An escape sequence that sets the color. -/
def IsSequence (w : List Byte) : Prop :=
  w = [esc, 109] ∨ ∃ ps : List Byte, w = esc :: 91 :: (ps ++ [109]) ∧ ps.length ≤ 9
    ∧ ∀ d ∈ ps, IsParam d

/-- Every `ESC` begins a complete escape sequence. -/
inductive Clean : List Byte → Prop where
  | nil : Clean []
  | byte (c : Byte) (s : List Byte) (hc : c ≠ esc) (hs : Clean s) : Clean (c :: s)
  | sequence (w s : List Byte) (hw : IsSequence w) (hs : Clean s) : Clean (w ++ s)

/-- The same, while bytes are held back. -/
def CleanAfter : List Byte → List Byte → Prop
  | p, [] => p = []
  | p, c :: s => abandoned p c = [] ∧ CleanAfter (feed p c).1 s

/-- A complete sequence leaves nothing. -/
theorem complete_feed (h : Partial p) (hp : p ≠ []) (hm : ¬ collects (p.length + 1) 109) :
    abandoned p 109 = [] ∧ (feed p 109).1 = [] := by
  cases feed_cases h 109 with
  | plain hnil => exact absurd hnil hp
  | held _ hcol => exact absurd hcol hm
  | dropped _ _ hc => exact absurd rfl hc
  | complete _ _ _ hf =>
      rw [abandoned, if_neg hp, hf]
      exact ⟨rfl, rfl⟩

theorem not_collects_m {n : Int} (hn : n ≠ 1) : ¬ collects n 109 := by
  rintro (h1 | ⟨-, h2⟩ | ⟨-, -, h3 | h3⟩)
  · exact hn h1
  · exact absurd h2 (by decide)
  · exact absurd h3 (by decide)
  · exact absurd h3 (by decide)

/-- Parameters are held back; what follows decides. -/
theorem cleanAfter_params {ps qs s : List Byte} (hlen : ps.length + qs.length ≤ 9)
    (hqs : ∀ d ∈ qs, IsParam d) :
    CleanAfter (esc :: 91 :: ps) (qs ++ s) ↔ CleanAfter (esc :: 91 :: (ps ++ qs)) s := by
  induction qs generalizing ps with
  | nil => rw [List.nil_append, List.append_nil]
  | cons d qs ih =>
      rw [List.length_cons] at hlen
      have hcol : collects ((esc :: 91 :: ps).length + 1) d := by
        refine Or.inr (Or.inr ⟨?_, ?_, hqs d List.mem_cons_self⟩)
        · rw [List.length_cons, List.length_cons]
          omega
        · rw [List.length_cons, List.length_cons]
          omega
      have hne : ¬ (esc :: 91 :: ps = [] ∧ d ≠ esc) := fun h => absurd h.1 (List.cons_ne_nil _ _)
      have hfeed : feed (esc :: 91 :: ps) d = (esc :: 91 :: (ps ++ [d]), []) := by
        rw [feed, if_neg hne, if_pos hcol]
        rfl
      have hab : abandoned (esc :: 91 :: ps) d = [] := by
        rw [abandoned, if_neg (List.cons_ne_nil _ _), hfeed]
      rw [List.cons_append, CleanAfter, hab, hfeed,
        ih (by rw [List.length_append, List.length_singleton]; omega)
          (fun d hd => hqs d (List.mem_cons_of_mem _ hd)), List.append_assoc]
      exact ⟨fun h => h.2, fun h => ⟨rfl, h⟩⟩

theorem cleanAfter_sequence {w s : List Byte} (hw : IsSequence w) (hs : CleanAfter [] s) :
    CleanAfter [] (w ++ s) := by
  obtain rfl | ⟨ps, rfl, hlen, hps⟩ := hw
  · obtain ⟨hab, hfeed⟩ := complete_feed .escape (List.cons_ne_nil _ _)
      (not_collects_m (by decide : (([esc] : List Byte).length : Int) + 1 ≠ 1))
    refine ⟨rfl, hab, ?_⟩
    show CleanAfter (feed [esc] 109).1 s
    rw [hfeed]
    exact hs
  · have hpart : Partial (esc :: 91 :: ps) := .params ps hlen hps
    obtain ⟨hab, hfeed⟩ := complete_feed hpart (List.cons_ne_nil _ _) (not_collects_m (by
      rw [List.length_cons, List.length_cons]
      omega))
    have hrest : CleanAfter [esc, 91] (ps ++ (109 :: s)) := by
      rw [@cleanAfter_params [] ps (109 :: s) (by rw [List.length_nil]; omega) hps]
      refine ⟨hab, ?_⟩
      show CleanAfter (feed (esc :: 91 :: ps) 109).1 s
      rw [hfeed]
      exact hs
    have hsplit : esc :: 91 :: (ps ++ [109]) ++ s = esc :: 91 :: (ps ++ (109 :: s)) := by
      rw [List.cons_append, List.cons_append, List.append_assoc]
      rfl
    rw [hsplit]
    exact ⟨rfl, rfl, hrest⟩

theorem Clean.after {s : List Byte} (h : Clean s) : CleanAfter [] s := by
  induction h with
  | nil => rfl
  | byte c s hc _ ih =>
      refine ⟨rfl, ?_⟩
      rw [feed, if_pos ⟨rfl, hc⟩]
      exact ih
  | sequence w s hw _ ih => exact cleanAfter_sequence hw ih

/-- What has been held back is completed by what follows. -/
theorem CleanAfter.clean {s : List Byte} (h : CleanAfter p s) (hp : Partial p) : Clean (p ++ s) := by
  induction s generalizing p with
  | nil =>
      rw [h]
      exact .nil
  | cons c s ih =>
      obtain ⟨hab, hs⟩ := h
      have hclean := ih hs (hp.feed c)
      rw [abandoned] at hab
      cases feed_cases hp c with
      | plain hnil hc hf =>
          rw [hf] at hclean
          rw [hnil]
          exact .byte c s hc hclean
      | held _ _ hf _ =>
          rw [hf, List.append_assoc] at hclean
          exact hclean
      | dropped hne _ _ hf =>
          rw [if_neg hne, hf] at hab
          exact absurd hab (List.append_ne_nil_of_left_ne_nil hne [c])
      | complete hne hcol hc hf =>
          rw [hf] at hclean
          have hw : IsSequence (p ++ [c]) := by
            rw [hc]
            cases hp with
            | empty => exact absurd rfl hne
            | escape => exact Or.inl rfl
            | params ps hlen hps => exact Or.inr ⟨ps, rfl, hlen, hps⟩
          rw [List.append_cons]
          exact .sequence _ _ hw hclean

theorem clean_iff (s : List Byte) : Clean s ↔ CleanAfter [] s :=
  ⟨Clean.after, fun h => h.clean .empty⟩

/-! ## What the log gets -/

/-- An error printer sends more than a log printer, byte for byte as many more
    as there are in broken sequences. -/
theorem errorLog_length (p s : List Byte) :
    (feedAll p s).2.length ≤ (errorLog p s).length
      ∧ ((errorLog p s).length = (feedAll p s).2.length ∧ (feedAll p s).1 = [] ↔ CleanAfter p s)
      ∧ (CleanAfter p s → errorLog p s = (feedAll p s).2) := by
  induction s generalizing p with
  | nil => exact ⟨Nat.le_refl _, ⟨fun h => h.2, fun h => ⟨rfl, h⟩⟩, fun _ => rfl⟩
  | cons c s ih =>
      obtain ⟨hle, hiff, heq⟩ := ih (feed p c).1
      rw [errorLog, feedAll, CleanAfter]
      simp only [List.length_append]
      refine ⟨by omega, ?_, ?_⟩
      · have hempty : abandoned p c = [] ↔ (abandoned p c).length = 0 :=
          List.length_eq_zero_iff.symm
        rw [← hiff, hempty]
        constructor
        · rintro ⟨hlen, hnil⟩
          exact ⟨by omega, by omega, hnil⟩
        · rintro ⟨hab, hlen, hnil⟩
          exact ⟨by omega, hnil⟩
      · rintro ⟨hab, hs⟩
        rw [hab, List.append_nil, heq hs]

/-- A message through a log printer. -/
theorem printLog_spec (d : Nat) (s : List Byte) (m : Machine) :
    Ends (printLog (d + 2) s) m fun _ m' => m'.port = m.port ++ (feedAll [] s).2 := by
  refine Ends.bind (Ends.modify ?_)
  refine (Ends.each (fun L s' => ∃ p, Partial p ∧ Pending s'.logEbuf p
    ∧ s'.port ++ (feedAll p L).2 = m.port ++ (feedAll [] s).2) ?_
    ⟨[], .empty, Pending.nil m.logEbuf, rfl⟩).mono ?_
  · rintro c L s' ⟨p, hp, hb, hout⟩
    refine (logPutc_spec d hb hp c).mono ?_
    rintro _ s'' ⟨b, color, hb', rfl⟩
    refine ⟨(feed p c).1, hp.feed c, hb', ?_⟩
    show (s'.port ++ (feed p c).2) ++ _ = _
    rw [← hout, feedAll, List.append_assoc]
  · rintro _ s' ⟨p, -, -, hout⟩
    rw [feedAll, List.append_nil] at hout
    exact hout

/-- **THE LOG COPY** of a message is what a log printer sends, unless a sequence
    in it is broken. -/
theorem errorLog_eq_iff (m : Machine) (h0 : 0 ≤ m.cursorpos) (h1 : m.cursorpos ≤ 2000) (d : Nat)
    (hd : 3 ≤ d) (s : List Byte) :
    ∃ copy sent, (Ends (printError d s) m fun _ m' => m'.port = m.port ++ copy)
      ∧ (Ends (printLog d s) m fun _ m' => m'.port = m.port ++ sent)
      ∧ (copy = sent ↔ Clean s) := by
  obtain ⟨k, rfl⟩ : ∃ k, d = k + 3 := ⟨d - 3, by omega⟩
  refine ⟨errorLog [] s ++ ((feedAll [] s).1 ++ (feedAll [] s).1), (feedAll [] s).2, ?_,
    printLog_spec (k + 1) s m, ?_⟩
  · refine (printError_spec k s h0 h1).mono ?_
    rintro _ m' ⟨-, -, hport⟩
    rw [hport, List.append_assoc, List.append_assoc]
  · obtain ⟨hle, hiff, heq⟩ := errorLog_length [] s
    rw [clean_iff, ← hiff]
    constructor
    · intro h
      have hlen := congrArg List.length h
      rw [List.length_append, List.length_append] at hlen
      exact ⟨by omega, List.eq_nil_of_length_eq_zero (by omega)⟩
    · intro h
      rw [heq (hiff.mp h), h.2, List.append_nil, List.append_nil]

/-- A message with one complete sequence. -/
theorem errorLog_eq_iff_small :
    ∃ copy sent, (Ends (printError 3 [esc, 91, 109, 120]) clearScreen fun _ m' =>
        m'.port = clearScreen.port ++ copy)
      ∧ (Ends (printLog 3 [esc, 91, 109, 120]) clearScreen fun _ m' =>
        m'.port = clearScreen.port ++ sent)
      ∧ (copy = sent ↔ Clean [esc, 91, 109, 120]) :=
  errorLog_eq_iff clearScreen (by decide) (by decide) 3 (by decide) _

/-- The log copy of `ESC x` has both bytes twice. -/
theorem abandoned_sent_twice :
    ∃ copy sent, (Ends (printError 3 [esc, 120]) clearScreen fun _ m' => m'.port = copy)
      ∧ (Ends (printLog 3 [esc, 120]) clearScreen fun _ m' => m'.port = sent) ∧ copy ≠ sent := by
  refine ⟨[esc, 120, esc, 120], [esc, 120], ?_, ?_, by decide⟩
  · refine (printError_spec 0 [esc, 120] (by decide) (by decide)).mono ?_
    rintro _ m' ⟨-, -, hport⟩
    rw [hport]
    decide
  · refine (printLog_spec 1 [esc, 120] clearScreen).mono ?_
    intro _ m' hport
    rw [hport]
    decide

end ConsolePrinter
