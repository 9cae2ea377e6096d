import Mathlib.Data.List.Forall2
import Cs61.ShellParser

/-! # Quoted words — what a quoted word reads back as

    A word of a command line can be written with a backslash before every byte,
    between single quotes, or between double quotes.  `operator++` and `str`
    each go over the written word with their own state of quotes.

    * `scanWord_write` — the word loop takes exactly the written word;
    * `strLoop_write` — `str` gives the word back;
    * `quoted_words` — the tokens of a line of such words. -/

namespace QuotedWords

open ShellTokens TokenLists ShellParser

/-! ## Written words -/

/-- The three ways to write a word. -/
inductive Style where
  | escaped
  | single
  | double
deriving DecidableEq

/-- The state of quotes inside the word. -/
def Style.quote : Style → UInt8
  | escaped => 0
  | single => squote
  | double => dquote

/-- One byte of the word. -/
def Style.piece : Style → UInt8 → List UInt8
  | escaped, b => [backslash, b]
  | single, b => [b]
  | double, b => if b = dquote ∨ b = backslash then [backslash, b] else [b]

/-- The characters of a word, each as the style writes it. -/
def Style.body (style : Style) (word : List UInt8) : List UInt8 := word.flatMap style.piece

/-- A word as the style writes it. -/
def Style.write : Style → List UInt8 → List UInt8
  | escaped, word => Style.body escaped word
  | single, word => squote :: (Style.body single word ++ [squote])
  | double, word => dquote :: (Style.body double word ++ [dquote])

/-- The words that can be written so. -/
def Style.Allows : Style → List UInt8 → Prop
  | escaped, word => word ≠ []
  | single, word => squote ∉ word
  | double, _ => True

/-- A word and how it is written. -/
structure Quoted where
  word : List UInt8
  style : Style
  nulFree : ∀ b ∈ word, b ≠ 0
  allowed : style.Allows word

/-- The word as it stands in the line. -/
def Quoted.written (w : Quoted) : List UInt8 := w.style.write w.word

/-- The blank. -/
def space : UInt8 := 32

/-- The words, joined by single spaces. -/
def joined (ws : List Quoted) : List UInt8 := [space].intercalate (ws.map Quoted.written)

/-- The line of the words, with blanks between them. -/
def lineOf (ws : List Quoted) : Line := ⟨joined ws⟩

/-- The tokenizer of the line after `n` times `++`. -/
def tokenAt (line : Line) : Nat → Tokenizer
  | 0 => .new line 0 line.length
  | n + 1 => (tokenAt line n).next line

variable {line : Line} {style : Style}

/-- The first word, a blank and the rest. -/
theorem joined_cons (w : Quoted) (ws : List Quoted) :
    joined (w :: ws) = w.written ++ (if ws = [] then [] else space :: joined ws) := by
  cases ws with
  | nil => simp [joined, List.intercalate]
  | cons v ws => simp [joined, List.intercalate]

theorem body_cons (b : UInt8) (word : List UInt8) :
    style.body (b :: word) = style.piece b ++ style.body word := List.flatMap_cons

/-! ## Bytes of the line -/

/-- The bytes `bs` stand at `p`. -/
def At (line : Line) (p : Nat) (bs : List UInt8) : Prop := bs <+: line.bytes.drop p

theorem At.byte {p : Nat} {b : UInt8} {bs : List UInt8} (h : At line p (b :: bs)) :
    line.byte p = b := by
  obtain ⟨rest, hrest⟩ := h
  have hhead : line.bytes[p]? = some b := by
    rw [← List.head?_drop, ← hrest]
    rfl
  rw [Line.byte, List.getD_eq_getElem?_getD, hhead]
  rfl

/-- A text that stands in the line, in two pieces. -/
theorem At.append {p : Nat} {bs cs : List UInt8} (h : At line p (bs ++ cs)) :
    At line p bs ∧ At line (p + bs.length) cs := by
  obtain ⟨rest, hrest⟩ := h
  constructor
  · exact ⟨cs ++ rest, by rw [← List.append_assoc, hrest]⟩
  · refine ⟨rest, ?_⟩
    rw [← List.drop_drop, ← hrest, List.append_assoc, List.drop_left]

theorem At.tail {p : Nat} {b : UInt8} {bs : List UInt8} (h : At line p (b :: bs)) :
    At line (p + 1) bs :=
  (show At line p ([b] ++ bs) from h).append.2

/-! ## One byte of a word -/

/-- What a style asks of each byte. -/
def Style.Takes (style : Style) (b : UInt8) : Prop := b ≠ 0 ∧ (style = single → b ≠ squote)

/-- A byte that is written as it is. -/
structure Plain (style : Style) (b : UInt8) : Prop where
  piece : style.piece b = [b]
  quoted : style.quote ≠ 0
  differs : b ≠ style.quote
  literal : ¬ (b = backslash ∧ style.quote ≠ squote)

/-- A byte is written after a backslash, or as it is. -/
theorem piece_cases {b : UInt8} (h : style.Takes b) :
    (style.piece b = [backslash, b] ∧ style.quote ≠ squote) ∨ Plain style b := by
  cases style with
  | escaped => exact Or.inl ⟨rfl, by decide⟩
  | single =>
      refine Or.inr ⟨rfl, by decide, h.2 rfl, ?_⟩
      exact fun hc => hc.2 rfl
  | double =>
      by_cases hb : b = dquote ∨ b = backslash
      · exact Or.inl ⟨if_pos hb, by decide⟩
      · rw [not_or] at hb
        refine Or.inr ⟨if_neg (not_or.mpr hb), by decide, hb.1, ?_⟩
        exact fun hc => hb.2 hc.1

theorem quote_ne_backslash (style : Style) : backslash ≠ style.quote := by
  cases style <;> decide

/-- The word loop goes over a byte that is written after a backslash. -/
theorem scanWord_escape {p left : Nat} {c b : UInt8} {q : Bool} (hc : c ≠ backslash)
    (hsingle : c ≠ squote) (hat : At line p [backslash, b]) :
    scanWord line (left + 2) p c q = scanWord line left (p + 2) c true := by
  have hspace : ¬ (isspace backslash = true ∨ isshellspecial backslash = true) := by decide
  have hquote : ¬ (backslash = dquote ∨ backslash = squote) := by decide
  rw [scanWord_succ, hat.byte, if_neg (fun h => hspace h.2), if_neg (fun h => hquote h.1),
    if_neg (Ne.symm hc), if_pos ⟨rfl, Nat.succ_ne_zero left, hsingle⟩]
  rfl

/-- An escaped byte stands for itself. -/
theorem strLoop_escape {p left : Nat} {c b : UInt8} (hb : b ≠ 0) (hc : c ≠ backslash)
    (hsingle : c ≠ squote) (hat : At line p [backslash, b]) :
    strLoop line (left + 2) p c = (strLoop line left (p + 2) c).map (b :: ·) := by
  have hquote : ¬ (backslash = dquote ∨ backslash = squote) := by decide
  have hnext : line.byte (p + 1) = b := hat.tail.byte
  rw [strLoop.eq_def]
  dsimp only
  rw [hat.byte, hnext, if_neg (fun h => hquote h.1), if_neg (Ne.symm hc),
    if_pos ⟨rfl, hb, hsingle⟩]

/-- The word loop goes over one byte of a word; only a word between quotes has
    to be quoted before. -/
theorem scanWord_piece {p left : Nat} {b : UInt8} {q : Bool} (htakes : style.Takes b)
    (hq : style.quote ≠ 0 → q = true) (hat : At line p (style.piece b)) :
    scanWord line ((style.piece b).length + left) p style.quote q
      = scanWord line left (p + (style.piece b).length) style.quote true := by
  rcases piece_cases htakes with ⟨hpiece, hsingle⟩ | hplain
  · rw [hpiece] at hat ⊢
    rw [List.length_cons, List.length_singleton, Nat.add_comm]
    exact scanWord_escape (Ne.symm (quote_ne_backslash style)) hsingle hat
  · rw [hplain.piece] at hat ⊢
    rw [List.length_singleton, Nat.add_comm, scanWord_succ, hat.byte, hq hplain.quoted,
      if_neg (fun h => hplain.quoted h.1), if_neg (fun h => hplain.quoted h.2),
      if_neg hplain.differs, if_neg (fun h => hplain.literal ⟨h.1, h.2.2⟩)]

/-- `str` gives back one byte as the style writes it. -/
theorem strLoop_piece {p left : Nat} {b : UInt8} (htakes : style.Takes b)
    (hat : At line p (style.piece b)) :
    strLoop line ((style.piece b).length + left) p style.quote
      = (strLoop line left (p + (style.piece b).length) style.quote).map (b :: ·) := by
  rcases piece_cases htakes with ⟨hpiece, hsingle⟩ | hplain
  · rw [hpiece] at hat ⊢
    rw [List.length_cons, List.length_singleton, Nat.add_comm]
    exact strLoop_escape htakes.1 (Ne.symm (quote_ne_backslash style)) hsingle hat
  · rw [hplain.piece] at hat ⊢
    rw [List.length_singleton, Nat.add_comm, strLoop.eq_def]
    dsimp only
    rw [hat.byte, if_neg (fun h => hplain.quoted h.2), if_neg hplain.differs,
      if_neg (fun h => hplain.literal ⟨h.1, h.2.2⟩)]

/-! ## The word -/

/-- The scan passes over a word as the style writes it. -/
theorem scanWord_body {word : List UInt8} {p : Nat} {q : Bool} (left : Nat)
    (htakes : ∀ b ∈ word, style.Takes b) (hq : style.quote ≠ 0 → q = true)
    (hat : At line p (style.body word)) :
    scanWord line ((style.body word).length + left) p style.quote q
      = scanWord line left (p + (style.body word).length) style.quote (q || !word.isEmpty) := by
  induction word generalizing p q with
  | nil =>
      rw [show style.body [] = [] from rfl, List.length_nil, Nat.zero_add]
      cases q <;> rfl
  | cons b word ih =>
      rw [body_cons] at hat ⊢
      obtain ⟨hpiece, hrest⟩ := hat.append
      rw [List.length_append, Nat.add_assoc,
        scanWord_piece (htakes b List.mem_cons_self) hq hpiece,
        ih (fun c hc => htakes c (List.mem_cons_of_mem b hc)) (fun _ => rfl) hrest, Nat.add_assoc]
      cases q <;> rfl

/-- `str` gives back a word as the style writes it. -/
theorem strLoop_body {word : List UInt8} {p : Nat} (left : Nat) (htakes : ∀ b ∈ word, style.Takes b)
    (hat : At line p (style.body word)) :
    strLoop line ((style.body word).length + left) p style.quote
      = (strLoop line left (p + (style.body word).length) style.quote).map (word ++ ·) := by
  induction word generalizing p with
  | nil =>
      rw [show style.body [] = [] from rfl, List.length_nil, Nat.zero_add]
      exact Option.map_id'.symm
  | cons b word ih =>
      rw [body_cons] at hat ⊢
      obtain ⟨hpiece, hrest⟩ := hat.append
      rw [List.length_append, Nat.add_assoc,
        strLoop_piece (htakes b List.mem_cons_self) hpiece,
        ih (fun c hc => htakes c (List.mem_cons_of_mem b hc)) hrest, Option.map_map,
        Nat.add_assoc]
      rfl

/-! ## The quotes around it -/

/-- What follows a word: the end of the region, or a blank. -/
def EndsWord (line : Line) (left p : Nat) : Prop := left = 0 ∨ isspace (line.byte p) = true

/-- The scan ends where the word does. -/
theorem scanWord_end {left p : Nat} {q : Bool} (h : EndsWord line left p) :
    scanWord line left p 0 q = (p, q) := by
  rcases h with rfl | hspace
  · rfl
  · cases left with
    | zero => rfl
    | succ left => rw [scanWord_succ, if_pos ⟨rfl, Or.inl hspace⟩]

/-- An opening or a closing quote. -/
structure IsQuote (c : UInt8) : Prop where
  quote : c = dquote ∨ c = squote
  ne_zero : c ≠ 0
  plain : ¬ (isspace c = true ∨ isshellspecial c = true)

theorem isQuote_squote : IsQuote squote := ⟨Or.inr rfl, by decide, by decide⟩

theorem isQuote_dquote : IsQuote dquote := ⟨Or.inl rfl, by decide, by decide⟩

/-- The scan passes over a text in quotes. -/
theorem scanWord_quotes {c : UInt8} (hc : IsQuote c) {body : List UInt8} {left p : Nat}
    (hat : At line p (c :: (body ++ [c]))) (hend : EndsWord line left (p + (body.length + 2)))
    (hbody : ∀ n, scanWord line (body.length + n) (p + 1) c true
      = scanWord line n (p + 1 + body.length) c true) :
    scanWord line (body.length + 2 + left) p 0 false = (p + (body.length + 2), true) := by
  have hclose : line.byte (p + 1 + body.length) = c := hat.tail.append.2.byte
  rw [show body.length + 2 + left = body.length + (left + 1) + 1 by omega, scanWord_succ, hat.byte,
    if_neg (fun h => hc.plain h.2), if_pos ⟨hc.quote, rfl⟩, hbody, scanWord_succ, hclose,
    if_neg (fun h => hc.ne_zero h.1), if_neg (fun h => hc.ne_zero h.2), if_pos rfl,
    show p + 1 + body.length + 1 = p + (body.length + 2) by omega]
  exact scanWord_end hend

/-- `str` gives back what stands in quotes. -/
theorem strLoop_quotes {c : UInt8} (hc : IsQuote c) {body word : List UInt8} {p : Nat}
    (hat : At line p (c :: (body ++ [c])))
    (hbody : ∀ n, strLoop line (body.length + n) (p + 1) c
      = (strLoop line n (p + 1 + body.length) c).map (word ++ ·)) :
    strLoop line (body.length + 2) p 0 = some word := by
  have hclose : line.byte (p + 1 + body.length) = c := hat.tail.append.2.byte
  have hlast : strLoop line 1 (p + 1 + body.length) c = some [] := by
    rw [strLoop.eq_def]
    dsimp only
    rw [hclose, if_neg (fun h => hc.ne_zero h.2), if_pos rfl]
    rfl
  rw [strLoop.eq_def]
  dsimp only
  rw [hat.byte, if_pos ⟨hc.quote, rfl⟩, hbody, hlast]
  exact congrArg some (List.append_nil word)

/-- What a style can write. -/
theorem takes_of_allows {word : List UInt8} (hnul : ∀ b ∈ word, b ≠ 0)
    (hallows : style.Allows word) : ∀ b ∈ word, style.Takes b := by
  rintro b hb
  refine ⟨hnul b hb, ?_⟩
  rintro rfl rfl
  exact hallows hb

/-- **THE WORD LOOP** takes exactly the written word. -/
theorem scanWord_write (w : Quoted) {left p : Nat} (hat : At line p w.written)
    (hend : EndsWord line left (p + w.written.length)) :
    scanWord line (w.written.length + left) p 0 false = (p + w.written.length, true) := by
  obtain ⟨word, style, hnul, hallows⟩ := w
  have htakes := takes_of_allows hnul hallows
  cases style with
  | escaped =>
      have hbody := scanWord_body left htakes (q := false) (fun h => absurd rfl h) hat
      have hne : (false || !word.isEmpty) = true := by
        rw [Bool.false_or, Bool.not_eq_true', List.isEmpty_eq_false_iff]
        exact hallows
      rw [hne] at hbody
      exact hbody.trans (scanWord_end hend)
  | single =>
      simp only [Quoted.written, Style.write, List.length_cons, List.length_append,
        List.length_nil] at hat hend ⊢
      exact scanWord_quotes isQuote_squote hat hend
        (fun n => scanWord_body n htakes (fun _ => rfl) hat.tail.append.1)
  | double =>
      simp only [Quoted.written, Style.write, List.length_cons, List.length_append,
        List.length_nil] at hat hend ⊢
      exact scanWord_quotes isQuote_dquote hat hend
        (fun n => scanWord_body n htakes (fun _ => rfl) hat.tail.append.1)

/-- **`str`** gives the word back. -/
theorem strLoop_write (w : Quoted) {p : Nat} (hat : At line p w.written) :
    strLoop line w.written.length p 0 = some w.word := by
  obtain ⟨word, style, hnul, hallows⟩ := w
  have htakes := takes_of_allows hnul hallows
  cases style with
  | escaped =>
      refine (strLoop_body 0 htakes hat).trans ?_
      exact congrArg some (List.append_nil word)
  | single =>
      simp only [Quoted.written, Style.write, List.length_cons, List.length_append,
        List.length_nil] at hat ⊢
      exact strLoop_quotes isQuote_squote hat
        (fun n => strLoop_body n htakes hat.tail.append.1)
  | double =>
      simp only [Quoted.written, Style.write, List.length_cons, List.length_append,
        List.length_nil] at hat ⊢
      exact strLoop_quotes isQuote_dquote hat
        (fun n => strLoop_body n htakes hat.tail.append.1)

/-! ## Its token -/

/-- A byte that a written word starts with. -/
structure Opens (c : UInt8) : Prop where
  space : ¬ isspace c = true
  special : ¬ isshellspecial c = true
  digit : ¬ isdigit c = true

theorem Opens.ne {c d : UInt8} (h : Opens c) (hd : isshellspecial d = true) : c ≠ d :=
  fun heq => h.special (heq ▸ hd)

/-- A written word starts with a byte that starts a word. -/
theorem written_opens (w : Quoted) : ∃ c cs, w.written = c :: cs ∧ Opens c := by
  obtain ⟨word, style, hnul, hallows⟩ := w
  cases style with
  | escaped =>
      obtain ⟨b, bs, rfl⟩ := List.exists_cons_of_ne_nil hallows
      exact ⟨backslash, b :: Style.body .escaped bs, rfl, by decide, by decide, by decide⟩
  | single => exact ⟨squote, _, rfl, by decide, by decide, by decide⟩
  | double => exact ⟨dquote, _, rfl, by decide, by decide, by decide⟩

/-- A token that is the written word. -/
structure Reads (line : Line) (w : Quoted) (t : Token) : Prop where
  type : t.type = .normal
  quoted : t.quoted = true
  stop : t.stop = t.start + w.written.length
  text : At line t.start w.written

/-- The tokenizer reads one written word. -/
theorem reads_readToken (w : Quoted) {left p : Nat} (hat : At line p w.written)
    (hend : EndsWord line left (p + w.written.length)) :
    Reads line w (readToken line p (p + w.written.length + left)) := by
  obtain ⟨c, cs, hwritten, hopens⟩ := written_opens w
  have hbyte : line.byte p = c := (hwritten ▸ hat).byte
  have hdigits : line.digits p (p + w.written.length + left) = p := by
    refine skip_eq (Nat.le_refl p) (by omega) (fun i hi hlt => by omega) ?_
    rw [hbyte]
    exact fun _ => hopens.digit
  have hword : IsWord line p (p + w.written.length + left)
      (line.digits p (p + w.written.length + left)) := by
    rw [hdigits]
    refine ⟨?_, ?_, ?_⟩
    · rw [isRedirect_iff, hbyte]
      exact fun h => h.2.elim (hopens.ne (by decide)) (hopens.ne (by decide))
    · rw [isTwoChar_iff, hbyte]
      exact fun h => h.2.1.elim (hopens.ne (by decide)) (hopens.ne (by decide))
    · rw [hbyte]
      exact fun h => hopens.special h.2
  rw [readToken_word hword, hdigits,
    show p + w.written.length + left - p = w.written.length + left by omega,
    scanWord_write w hat hend]
  exact ⟨rfl, rfl, rfl, hat⟩

/-- The text of the token is the word. -/
theorem Reads.str {w : Quoted} {t : Token} (h : Reads line w t) (hshort : w.written.length < 2 ^ 32)
    (e : Nat) : (atToken e t).str line = some w.word := by
  have hlen : (atToken e t).len = w.written.length := by
    show (t.stop - t.start) % 2 ^ 32 = w.written.length
    rw [h.stop, Nat.add_sub_cancel_left, Nat.mod_eq_of_lt hshort]
  rw [Tokenizer.str, if_pos (show (atToken e t).quoted = true from h.quoted), hlen]
  exact strLoop_write w h.text

/-! ## The line -/

/-- A blank is skipped. -/
theorem tokens_space {e s : Nat} (hse : s < e) (hspace : isspace (line.byte s) = true)
    (hself : skipShellSpace line (s + 1) e = s + 1) : tokens line e s = tokens line e (s + 1) := by
  have hskip : skipShellSpace line s e = s + 1 := by
    refine skipShellSpace_eq (Nat.le_succ s) hse ?_ hself
    intro i hi hlt
    obtain rfl : i = s := by omega
    exact hspace
  rw [← tokens_skip (Nat.le_of_lt hse), hskip]

/-- A written word starts a token. -/
theorem skip_written {w : Quoted} {p e : Nat} (hat : At line p w.written) (hpe : p ≤ e) :
    skipShellSpace line p e = p := by
  obtain ⟨c, cs, hwritten, hopens⟩ := written_opens w
  have hbyte : line.byte p = c := (hwritten ▸ hat).byte
  refine skipShellSpace_eq_self ?_ ?_ hpe
  · rw [hbyte]
    exact hopens.space
  · rw [hbyte]
    exact hopens.ne (by decide)

/-- One written word is one token. -/
theorem tokens_written {w : Quoted} {p : Nat} (left : Nat) (hat : At line p w.written)
    (hend : EndsWord line left (p + w.written.length)) :
    ∃ t, Reads line w t ∧ tokens line (p + w.written.length + left) p
      = t :: tokens line (p + w.written.length + left) (p + w.written.length) := by
  have hreads := reads_readToken w hat hend
  have hlt : 0 < w.written.length := by
    obtain ⟨c, cs, hwritten, -⟩ := written_opens w
    rw [hwritten]
    exact Nat.succ_pos cs.length
  have hskip := skip_written hat (show p ≤ p + w.written.length + left by omega)
  have hstop := hreads.stop
  rw [readToken_start] at hstop
  refine ⟨_, hreads, ?_⟩
  rw [tokens, hskip, dif_pos (by omega), hstop]

/-- **THE TOKENS** from a word on, by induction on the words that are left. -/
theorem tokens_joined {ws : List Quoted} {p : Nat} (hp : p ≤ line.length)
    (hdrop : line.bytes.drop p = joined ws) :
    List.Forall₂ (Reads line) ws (tokens line line.length p) := by
  induction ws generalizing p with
  | nil =>
      have hend : p = line.length := Nat.le_antisymm hp (List.drop_eq_nil_iff.mp hdrop)
      rw [hend, tokens_end]
      exact List.Forall₂.nil
  | cons w ws ih =>
      have hlen : line.length = p + (joined (w :: ws)).length := by
        rw [← hdrop, List.length_drop]
        exact (Nat.add_sub_cancel' hp).symm
      have hat : At line p (joined (w :: ws)) := ⟨[], by rw [List.append_nil, hdrop]⟩
      rw [joined_cons] at hlen hat hdrop
      rw [List.length_append, ← Nat.add_assoc] at hlen
      obtain ⟨hword, hrest⟩ := hat.append
      -- the last word, or one with a blank behind it
      cases ws with
      | nil =>
          rw [if_pos rfl] at hlen
          obtain ⟨t, ht, htokens⟩ := tokens_written 0 hword (Or.inl rfl)
          rw [hlen]
          refine htokens ▸ List.Forall₂.cons ht ?_
          exact tokens_end line _ ▸ List.Forall₂.nil
      | cons v ws =>
          rw [if_neg (List.cons_ne_nil v ws)] at hlen hrest hdrop
          have hspace : isspace (line.byte (p + w.written.length)) = true := by
            rw [hrest.byte]
            decide
          obtain ⟨t, ht, htokens⟩ := tokens_written _ hword (Or.inr hspace)
          rw [← hlen] at htokens
          rw [List.length_cons] at hlen
          -- the rest of the line holds the other words
          have hnext : line.bytes.drop (p + w.written.length + 1) = joined (v :: ws) := by
            rw [Nat.add_assoc, ← List.drop_drop, hdrop, ← List.drop_drop, List.drop_left]
            rfl
          have hself : skipShellSpace line (p + w.written.length + 1) line.length
              = p + w.written.length + 1 := by
            have htail := hrest.tail
            rw [joined_cons] at htail
            exact skip_written htail.append.1 (by omega)
          rw [htokens, tokens_space (by omega) hspace hself]
          exact List.Forall₂.cons ht (ih (by omega) hnext)

/-- `++` goes from token to token, and stays at the end. -/
theorem tokenAt_eq {T : List Token} (hT : tokens line line.length 0 = T) (hshort : Short T)
    (n : Nat) : tokenAt line n = tokenizer line.length (T.drop n) := by
  induction n with
  | zero => rw [tokenAt, new_eq (Nat.zero_le _), hT, List.drop_zero]
  | succ n ih =>
      rw [tokenAt, ih]
      cases hdrop : T.drop n with
      | nil =>
          rw [List.drop_eq_nil_of_le (Nat.le_succ_of_le (List.drop_eq_nil_iff.mp hdrop))]
          exact next_nil line line.length
      | cons t rest =>
          have hsplit : tokens line line.length 0 = T.take n ++ (t :: rest) := by
            rw [hT, ← hdrop, List.take_append_drop]
          obtain ⟨s, -, hse, htokens⟩ := tokens_suffix (Nat.zero_le _) hsplit
          have hrest : T.drop (n + 1) = rest := by
            rw [← List.tail_drop, hdrop]
            rfl
          rw [hrest]
          refine next_cons hse htokens ?_
          exact hdrop ▸ fun u hu => hshort u (List.mem_of_mem_drop hu)

/-- The tokens before `TYPE_EOL` are the words, in order. -/
def ReadsBack (ws : List Quoted) : Prop :=
  (∀ (n : Nat) (hn : n < ws.length), (tokenAt (lineOf ws) n).type = .normal
      ∧ (tokenAt (lineOf ws) n).str (lineOf ws) = some ws[n].word)
    ∧ (tokenAt (lineOf ws) ws.length).type = .eol

/-- The tokens of a line are its words. -/
theorem reads_lineOf (ws : List Quoted) :
    List.Forall₂ (Reads (lineOf ws)) ws (tokens (lineOf ws) (lineOf ws).length 0) :=
  tokens_joined (Nat.zero_le _) List.drop_zero

/-- **QUOTED WORDS**: the line reads back as the words. -/
theorem quoted_words (ws : List Quoted) (hshort : ∀ w ∈ ws, w.written.length < 2 ^ 32) :
    ReadsBack ws := by
  have hlength := (reads_lineOf ws).length_eq
  have hget := (List.forall₂_iff_get.mp (reads_lineOf ws)).2
  have hT : Short (tokens (lineOf ws) (lineOf ws).length 0) := by
    intro t ht
    obtain ⟨i, hi, rfl⟩ := List.getElem_of_mem ht
    have hi' : i < ws.length := hlength ▸ hi
    have hstop := (hget i hi' hi).stop
    simp only [List.get_eq_getElem] at hstop
    rw [hstop, Nat.add_sub_cancel_left]
    exact hshort _ (List.getElem_mem hi')
  have hat := tokenAt_eq rfl hT
  refine ⟨?_, ?_⟩
  · intro n hn
    have hn' : n < (tokens (lineOf ws) (lineOf ws).length 0).length := hlength ▸ hn
    have hread := hget n hn hn'
    rw [hat, List.drop_eq_getElem_cons hn']
    exact ⟨hread.type, hread.str (hshort _ (List.getElem_mem hn)) _⟩
  · rw [hat, List.drop_eq_nil_of_le (Nat.le_of_eq hlength.symm)]
    rfl

/-- `\#  'a b'  ""`, with single spaces. -/
theorem quoted_words_small : ReadsBack [⟨[35], .escaped, by simp, by simp [Style.Allows]⟩,
    ⟨[97, 32, 98], .single, by simp, by simp [Style.Allows, squote]⟩,
    ⟨[], .double, by simp, trivial⟩] := by
  refine quoted_words _ ?_
  intro w hw
  simp only [List.mem_cons, List.not_mem_nil, or_false] at hw
  rcases hw with rfl | rfl | rfl <;> decide

/-! ## Words that do not fit -/

/-- A word whose length does not fit reads back as nothing. -/
theorem not_readsBack {w : Quoted} (hwrap : w.written.length % 2 ^ 32 = 0) (hne : w.word ≠ []) :
    ¬ ReadsBack [w] := by
  intro h
  obtain ⟨-, hstr⟩ := h.1 0 Nat.one_pos
  obtain ⟨t, T, ht, -, htokens⟩ := List.forall₂_cons_left_iff.mp (reads_lineOf [w])
  have hlen : (atToken (lineOf [w]).length t).len = 0 := by
    show (t.stop - t.start) % 2 ^ 32 = 0
    rw [ht.stop, Nat.add_sub_cancel_left, hwrap]
  rw [tokenAt, new_eq (Nat.zero_le _), htokens, tokenizer, Tokenizer.str,
    if_pos (show (atToken (lineOf [w]).length t).quoted = true from ht.quoted), hlen] at hstr
  exact hne (Option.some.inj hstr).symm

/-- `n` times the letter `a`, between single quotes. -/
def quotedLetters (n : Nat) : Quoted where
  word := List.replicate n 97
  style := .single
  nulFree := fun b hb => by simp [List.eq_of_mem_replicate hb]
  allowed := fun hb => absurd (List.eq_of_mem_replicate hb) (by decide)

theorem quotedLetters_length (n : Nat) : (quotedLetters n).written.length = n + 2 := by
  have hbody : Style.body .single (List.replicate n 97) = List.replicate n 97 :=
    List.flatMap_singleton' _
  simp only [Quoted.written, quotedLetters, Style.write, hbody, List.length_cons,
    List.length_append, List.length_nil, List.length_replicate]

/-- A word of 2 ^ 32 bytes, with its quotes, is not read back. -/
theorem long_word_lost : ¬ ReadsBack [quotedLetters (2 ^ 32 - 2)] := by
  refine not_readsBack ?_ ?_
  · rw [quotedLetters_length]
    decide
  · exact List.ne_nil_of_length_pos (by rw [quotedLetters, List.length_replicate]; decide)

end QuotedWords
