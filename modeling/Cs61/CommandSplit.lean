import Mathlib.Data.List.Forall2
import Cs61.ShellRegions

/-! # Conditionals, pipelines, commands — the nested split of a command line

    The documented loops go over the conditionals of a line, over the pipelines
    of each conditional and over the commands of each pipeline.  Each level
    works on regions and tokenizes again; `nested_split` says that together
    they split the token list of the line, once per level.

    A token's length is kept in an `unsigned`, so a word of 2^32 bytes has
    length 0 and the tokenizer never leaves it (`long_word_never_ends`). -/

namespace CommandSplit

open LoopRules ShellTokens TokenLists ShellParser ShellRegions Chunks

/-! ## The loops -/

/-- `for (shell_tokenizer it(str); it; ++it)`. -/
def tokenize (line : Line) (fuel : Nat) : Option (List Tokenizer) :=
  collect (fun it => it.s != it.end_) (fun it => some (it.next line)) fuel
    (.new line 0 line.length)

/-- Type and start of a token. -/
abbrev Mark := TokenType × Nat

/-- What a loop over the tokens of a region sees, and `next_op` of the region. -/
abbrev View := List Mark × TokenType

/-- What a caller of the parser sees: the tokens of a part, and the operator behind it. -/
def Parser.view (line : Line) (c : Parser) (fuel : Nat) : Option View :=
  (c.tokenLoop line fuel).map fun L => (L.map fun it => (it.type, it.s), c.nextOp line)

/-- Loop over the regions of `c`; look at each one and do `inside` in it. -/
def survey {β : Type} (line : Line) (fl : BitVec 64) (inside : Parser → Nat → Option β)
    (c : Parser) (fuel : Nat) : Option (List (View × β)) :=
  (c.children line fl fuel fuel).bind fun ds =>
    ds.mapM fun d => (Parser.view line d fuel).bind fun v => (inside d fuel).map fun b => (v, b)

/-- The commands of a pipeline, by the iterators of the parser. -/
def surveyCommands (line : Line) : Parser → Nat → Option (List (View × Unit)) :=
  survey line typemaskCommand fun _ _ => some ()

/-- The pipelines of a conditional, each with its commands. -/
def surveyPipelines (line : Line) : Parser → Nat → Option (List (View × List (View × Unit))) :=
  survey line typemaskPipeline (surveyCommands line)

/-- The conditionals of a line, each with its pipelines. -/
def surveyConditionals (line : Line) :
    Parser → Nat → Option (List (View × List (View × List (View × Unit)))) :=
  survey line typemaskConditional (surveyPipelines line)

/-! ## The split -/

/-- The chunks of a token list, each with the delimiter that ended it
    (`TYPE_EOL` if none) and what `inside` makes of it. -/
def split {β : Type} (fl : BitVec 64) (inside : List Mark → β) (L : List Mark) :
    List (View × β) :=
  (chunks (fun m : Mark => delimits fl m.1) L).map fun c =>
    ((c.1, c.2.elim .eol Prod.fst), inside c.1)

/-- The tokens of a pipeline, split where a command ends. -/
def splitCommands : List Mark → List (View × Unit) := split typemaskCommand fun _ => ()

/-- The tokens of a conditional, split where a pipeline ends. -/
def splitPipelines : List Mark → List (View × List (View × Unit)) :=
  split typemaskPipeline splitCommands

/-- The tokens of a line, split where a conditional ends. -/
def splitConditionals : List Mark → List (View × List (View × List (View × Unit))) :=
  split typemaskConditional splitPipelines

/-- What a split looks at: the type of a token, and where it starts. -/
def mark (t : Token) : Mark := (t.type, t.start)

variable {line : Line} {fl : BitVec 64} {e : Nat}

/-- The loop over the tokens of a region. -/
theorem tokenLoop_spec {c : Parser} (h : c.s ≤ c.stop) (hshort : Short (c.tokenList line)) :
    Returns (c.tokenLoop line) ((c.tokenList line).map (atToken c.stop)) := by
  -- induction on the tokens that are left
  have hgen : ∀ T, ToEnd line c.stop T → Short T →
      Returns (fun n => collect (fun it : Tokenizer => it.s != it.end_)
        (fun it => some (it.next line)) n (tokenizer c.stop T)) (T.map (atToken c.stop)) := by
    intro T
    induction T with
    | nil => exact fun _ _ => returns_stop (bne_self_eq_false c.stop)
    | cons t T ih =>
        intro hend hT
        have hlt := (hend.isToken (t := t) List.mem_cons_self).1.lt
        have hnext : some ((tokenizer c.stop (t :: T)).next line) = some (tokenizer c.stop T) :=
          congrArg some (next_cons hend.nextStart_le hend.tokens_eq hT)
        exact returns_step (bne_iff_ne.mpr (Nat.ne_of_lt hlt)) hnext
          (ih (hend.suffix (c := [t])) hT.tail)
  refine (hgen _ ⟨c.s, h, rfl⟩ hshort).congr ?_
  intro n
  rw [Parser.tokenLoop, new_eq h]

/-- An iterator shows its token. -/
theorem map_atToken (e : Nat) (T : List Token) :
    (T.map (atToken e)).map (fun it => (it.type, it.s)) = T.map mark := by
  rw [List.map_map]
  rfl

/-- The tokens of a region are those of its chunk, and `next_op` is its delimiter. -/
theorem view_of_child {chunk : List Token × Option Token} {d : Parser}
    (h : IsChild line fl e chunk d) : (d.tokenList line).map mark = chunk.1.map mark
      ∧ d.nextOp line = chunk.2.elim .eol Token.type := by
  obtain ⟨-, rest, hat, hdelim⟩ := h
  obtain ⟨htokens, htype⟩ := hat.tokenList
  refine ⟨?_, ?_⟩
  · rw [htokens, List.map_map]
    refine List.map_congr_left ?_
    intro t ht
    exact Prod.ext (htype t ht).1 (readToken_start t.start d.stop)
  · rw [hat.nextOp, hdelim]
    cases rest <;> rfl

/-- **ONE LEVEL**: the loop over the regions of a parser sees the split of its
    tokens, if the loops inside see what they should. -/
theorem survey_spec {β : Type} {inside : Parser → Nat → Option β} {g : List Mark → β}
    (heol : delimits fl .eol = true)
    (hinside : ∀ d, Region line d → Short (d.tokenList line) →
      Returns (inside d) (g ((d.tokenList line).map mark)))
    {c : Parser} (hc : Region line c) (hshort : Short (c.tokenList line)) :
    Returns (survey line fl inside c) (split fl g ((c.tokenList line).map mark)) := by
  obtain ⟨ds, hds, hall⟩ := children_spec heol hc hshort
  rw [split, chunks_map, List.map_map]
  refine hds.diag.bind (Returns.mapM (hall.imp ?_))
  intro chunk d hchild
  obtain ⟨hmarks, hop⟩ := view_of_child hchild
  obtain ⟨hchunk, rest, hat, -⟩ := hchild
  have hreg := hat.region
  have hd := hat.short hchunk
  have hview : Returns (Parser.view line d) (chunk.1.map mark, d.nextOp line) := by
    have := (tokenLoop_spec hreg.le hd).map fun L => (L.map fun it => (it.type, it.s), d.nextOp line)
    rwa [map_atToken, hmarks] at this
  have hop' : (chunk.2.map mark).elim .eol Prod.fst = d.nextOp line := by
    rw [hop]
    cases chunk.2 <;> rfl
  have hin := hinside d hreg hd
  rw [hmarks] at hin
  dsimp only [Function.comp]
  rw [hop']
  exact hview.bind (g := fun n v => (inside d n).map fun b => (v, b)) (hin.map _)

theorem region_ofLine (line : Line) : Region line (Parser.ofLine line) := by
  obtain ⟨-, hle⟩ := skipShellSpace_bounds line (Nat.zero_le line.length)
  exact ⟨hle, skipShellSpace_idem (Nat.zero_le line.length)⟩

/-- The tokens of the line. -/
theorem tokenList_ofLine (line : Line) :
    (Parser.ofLine line).tokenList line = tokens line line.length 0 :=
  tokens_skip (Nat.zero_le line.length)

/-- The tokens of the whole line. -/
theorem tokenize_spec (hshort : Short (tokens line line.length 0)) :
    Returns (tokenize line) ((tokens line line.length 0).map (atToken line.length)) :=
  tokenLoop_spec (c := { s := 0, stop := line.length, end_ := line.length }) (Nat.zero_le _) hshort

/-- **THE NESTED SPLIT**: the loops over conditionals, pipelines and commands
    end, and see the token list of the line split once per level. -/
theorem nested_split (hshort : Short (tokens line line.length 0)) :
    ∃ L, Returns (tokenize line) L
      ∧ Returns (surveyConditionals line (.ofLine line))
        (splitConditionals (L.map fun it => (it.type, it.s))) := by
  have hcommands : ∀ d, Region line d → Short (d.tokenList line) →
      Returns (surveyCommands line d) (splitCommands ((d.tokenList line).map mark)) :=
    fun d hd hs => survey_spec (by decide) (fun _ _ _ => Returns.pure ()) hd hs
  have hpipelines : ∀ d, Region line d → Short (d.tokenList line) →
      Returns (surveyPipelines line d) (splitPipelines ((d.tokenList line).map mark)) :=
    fun d hd hs => survey_spec (by decide) hcommands hd hs
  refine ⟨_, tokenize_spec hshort, ?_⟩
  rw [← tokenList_ofLine] at hshort
  rw [map_atToken, ← tokenList_ofLine]
  exact survey_spec (by decide) hpipelines (region_ofLine line) hshort

/-- Lines that fit the `unsigned` field, as those that the shell reads do. -/
theorem short_of_length (h : line.length < 2 ^ 32) : Short (tokens line line.length 0) := by
  intro t ht
  have := (isToken_of_mem (Nat.zero_le _) ht).1.stop_le
  omega

theorem nested_split_small :
    ∃ L, Returns (tokenize ⟨[97, 59, 98]⟩) L
      ∧ Returns (surveyConditionals ⟨[97, 59, 98]⟩ (.ofLine ⟨[97, 59, 98]⟩))
        (splitConditionals (L.map fun it => (it.type, it.s))) :=
  nested_split (short_of_length (by decide))

/-- `a;b|c`: the second conditional is a pipeline of two commands. -/
example : splitConditionals
      [(.normal, 0), (.sequence, 1), (.normal, 2), (.pipe, 3), (.normal, 4)]
    = [(([(.normal, 0)], .sequence), [(([(.normal, 0)], .eol), [(([(.normal, 0)], .eol), ())])]),
       (([(.normal, 2), (.pipe, 3), (.normal, 4)], .eol),
        [(([(.normal, 2), (.pipe, 3), (.normal, 4)], .eol),
          [(([(.normal, 2)], .pipe), ()), (([(.normal, 4)], .eol), ())])])] := rfl

/-! ## Words that do not fit -/

/-- A line of `n` times the letter `a`. -/
def letters (n : Nat) : Line := ⟨List.replicate n 97⟩

/-- A word of `n` letters. -/
theorem letters_length (n : Nat) : (letters n).length = n := List.length_replicate

theorem letters_byte {n i : Nat} (h : i < n) : (letters n).byte i = 97 := by
  rw [Line.byte, letters, List.getD_eq_getElem?_getD, List.getElem?_replicate, if_pos h]
  rfl

/-- The word is scanned to its end. -/
theorem scanWord_letters {n : Nat} (left p : Nat) (q : Bool) (h : p + left ≤ n) :
    scanWord (letters n) left p 0 q = (p + left, q) := by
  induction left generalizing p with
  | zero => rfl
  | succ left ih =>
      rw [scanWord_succ, letters_byte (by omega), if_neg (by decide), if_neg (by decide),
        if_neg (by decide), if_neg (fun hc => absurd hc.1 (by decide)), ih (p + 1) (by omega)]
      congr 1
      omega

/-- The line is one word. -/
theorem readToken_letters {n : Nat} (hn : 0 < n) : readToken (letters n) 0 n
    = { start := 0, type := .normal, quoted := false, stop := n } := by
  have hbyte : (letters n).byte 0 = 97 := letters_byte hn
  have hdigits : (letters n).digits 0 n = 0 := by
    refine skip_eq (Nat.le_refl 0) (Nat.zero_le n) (fun i _ hi => absurd hi (Nat.not_lt_zero i)) ?_
    rw [hbyte]
    exact fun _ => by decide
  rw [readToken_word, hdigits, scanWord_letters _ _ _ (by omega)]
  · rw [Nat.zero_add, Nat.sub_zero]
  · rw [hdigits]
    refine ⟨?_, ?_, ?_⟩
    · rw [isRedirect_iff, hbyte]
      exact fun h => absurd h.2 (by decide)
    · rw [isTwoChar_iff, hbyte]
      exact fun h => absurd h.2.1 (by decide)
    · rw [hbyte]
      decide

/-- A word whose length does not fit: its tokenizer stays where it is. -/
theorem next_letters {n : Nat} (hn : 0 < n) (hwrap : n % 2 ^ 32 = 0) {it : Tokenizer}
    (hs : it.s = 0) (hend : it.end_ = n) (hlen : it.len = 0) : it.next (letters n)
      = { s := 0, end_ := n, type := .normal, quoted := false, len := 0 } := by
  have hbyte : (letters n).byte 0 = 97 := letters_byte hn
  have hskip : skipShellSpace (letters n) 0 n = 0 :=
    skipShellSpace_eq_self (by rw [hbyte]; decide) (by rw [hbyte]; decide) (Nat.zero_le n)
  rw [Tokenizer.next, hs, hlen, hend, Nat.zero_add, hskip, if_neg (Nat.ne_of_lt hn),
    readToken_letters hn]
  dsimp only
  rw [Nat.sub_zero, hwrap]

/-- A word whose length is taken for zero never ends. -/
theorem firstDelimited_letters {n : Nat} (hn : 0 < n) (hwrap : n % 2 ^ 32 = 0) (fuel : Nat) :
    (Parser.ofLine (letters n)).firstDelimited (letters n) typemaskConditional fuel = none := by
  -- every pass ends where it started
  have hloop : ∀ k, run (seekBody (letters n) typemaskConditional) k
      { s := 0, end_ := n, type := .normal, quoted := false, len := 0 } = none := by
    intro k
    induction k with
    | zero => rfl
    | succ k ih =>
        have hnormal : 0 ≤ TokenType.code .normal
            ∧ typemaskConditional &&& TokenType.bit .normal = 0#64 := by decide
        rw [run, seekBody, if_pos hnormal, next_letters hn hwrap rfl rfl rfl]
        exact ih
  have hbyte : (letters n).byte 0 = 97 := letters_byte hn
  have hskip : skipShellSpace (letters n) 0 n = 0 :=
    skipShellSpace_eq_self (by rw [hbyte]; decide) (by rw [hbyte]; decide) (Nat.zero_le n)
  rw [Parser.firstDelimited, Parser.ofLine, Parser.new, letters_length, hskip, Tokenizer.new,
    next_letters hn hwrap rfl rfl rfl, hloop]
  rfl

/-- **A WORD OF 2^32 BYTES**: the loop over the conditionals never gets to the first. -/
theorem long_word_never_ends :
    ¬ ∃ r, Returns (surveyConditionals (letters (2 ^ 32)) (.ofLine (letters (2 ^ 32)))) r := by
  rintro ⟨r, n, hn⟩
  have hnone := firstDelimited_letters (n := 2 ^ 32) (by decide) (by decide) n
  have hret := hn n (Nat.le_refl n)
  rw [surveyConditionals, survey, Parser.children, hnone] at hret
  cases hret

end CommandSplit
