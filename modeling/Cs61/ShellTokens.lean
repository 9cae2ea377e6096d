import Mathlib.Data.List.Basic
import Mathlib.Tactic.Ring
import Cs61.LoopRules

/-! # `shell_tokenizer` — the tokens of a command line

    A tokenizer is a position in the line, the end of its region, and the
    current token.  `readToken` reads one token; how it depends on the end of
    the region is what the sub-parsers rely on:

    * `readToken_of_le` — a region that ends after the token reads the same;
    * `readToken_cut` — one that ends inside a word reads a word up to there. -/

namespace ShellTokens

/-! ## Bytes -/

/-- A string: its bytes, with the terminator after the last one. -/
structure Line where
  bytes : List UInt8

/-- `strlen`. -/
def Line.length (line : Line) : Nat := line.bytes.length

/-- A byte of the line; behind its end there are zeros. -/
def Line.byte (line : Line) (i : Nat) : UInt8 := line.bytes.getD i 0

/-- `isspace`, in the C locale. -/
def isspace (c : UInt8) : Bool := c == 32 || (9 ≤ c && c ≤ 13)

/-- `isdigit(c)`. -/
def isdigit (c : UInt8) : Bool := '0'.toUInt8 ≤ c && c ≤ '9'.toUInt8

/-- `isshellspecial(c)`. -/
def isshellspecial (c : UInt8) : Bool :=
  c == '<'.toUInt8 || c == '>'.toUInt8 || c == '&'.toUInt8 || c == '|'.toUInt8
    || c == ';'.toUInt8 || c == '('.toUInt8 || c == ')'.toUInt8 || c == '#'.toUInt8

/-- `'"'`, `'\''` and `'\\'`. -/
def dquote : UInt8 := 34
/-- The single quote. -/
def squote : UInt8 := 39
/-- The backslash. -/
def backslash : UInt8 := 92

/-- The blanks of `isspace`, in the C locale. -/
theorem isspace_iff {c : UInt8} :
    isspace c = true ↔ c.toNat = 32 ∨ (9 ≤ c.toNat ∧ c.toNat ≤ 13) := by
  rw [isspace, Bool.or_eq_true, beq_iff_eq, Bool.and_eq_true, decide_eq_true_iff,
    decide_eq_true_iff, UInt8.le_iff_toNat_le, UInt8.le_iff_toNat_le, ← UInt8.toNat_inj]
  rfl

theorem isdigit_iff {c : UInt8} : isdigit c = true ↔ 48 ≤ c.toNat ∧ c.toNat ≤ 57 := by
  rw [isdigit, Bool.and_eq_true, decide_eq_true_iff, decide_eq_true_iff, UInt8.le_iff_toNat_le,
    UInt8.le_iff_toNat_le]
  rfl

/-- The bytes that `isshellspecial` names. -/
theorem isshellspecial_iff {c : UInt8} : isshellspecial c = true
    ↔ c = '<'.toUInt8 ∨ c = '>'.toUInt8 ∨ c = '&'.toUInt8 ∨ c = '|'.toUInt8 ∨ c = ';'.toUInt8
      ∨ c = '('.toUInt8 ∨ c = ')'.toUInt8 ∨ c = '#'.toUInt8 := by
  simp only [isshellspecial, Bool.or_eq_true, beq_iff_eq, or_assoc]

theorem not_isspace_of_isdigit {c : UInt8} (h : isdigit c = true) : ¬ isspace c = true := by
  rw [isdigit_iff] at h
  rw [isspace_iff]
  omega

/-- A digit is part of a word. -/
theorem word_of_isdigit {c : UInt8} (h : isdigit c = true) :
    ¬ (isspace c = true ∨ isshellspecial c = true) ∧ ¬ (c = dquote ∨ c = squote) ∧ c ≠ 0
      ∧ c ≠ backslash := by
  have hspecial : ¬ isshellspecial c = true := by
    intro hs
    rcases isshellspecial_iff.mp hs with rfl | rfl | rfl | rfl | rfl | rfl | rfl | rfl <;>
      revert h <;> decide
  refine ⟨not_or.mpr ⟨not_isspace_of_isdigit h, hspecial⟩, ?_, ?_, ?_⟩
  · rintro (rfl | rfl) <;> revert h <;> decide
  · rintro rfl
    revert h
    decide
  · rintro rfl
    revert h
    decide

theorem not_isspace_of_special {c : UInt8} (h : isshellspecial c = true) : ¬ isspace c = true := by
  rcases isshellspecial_iff.mp h with rfl | rfl | rfl | rfl | rfl | rfl | rfl | rfl <;> decide

/-! ## Scanning -/

/-- `while (s != end && p(*s)) ++s`, with `left` bytes before the end. -/
def skipWhile (line : Line) (p : UInt8 → Bool) : Nat → Nat → Nat
  | s, 0 => s
  | s, left + 1 => if p (line.byte s) = true then skipWhile line p (s + 1) left else s

/-- The first byte from `s` on that is not as `p` says. -/
def Line.skip (line : Line) (p : UInt8 → Bool) (s e : Nat) : Nat := skipWhile line p s (e - s)

/-- Blanks and comments are skipped. -/
def skipShellSpace (line : Line) (s e : Nat) : Nat :=
  let s := line.skip isspace s e
  -- skip to end of line if comment
  if s ≠ e ∧ line.byte s = '#'.toUInt8 then e else s

/-- The loop over an ordinary word, with `left` bytes before the end: where it
    stops, and whether the word contains quotes or escapes. -/
def scanWord (line : Line) : Nat → Nat → UInt8 → Bool → Nat × Bool
  | 0, p, _, quoted => (p, quoted)
  | left + 1, p, curquote, quoted =>
      if curquote = 0 ∧ (isspace (line.byte p) = true ∨ isshellspecial (line.byte p) = true) then
        (p, quoted)
      else if (line.byte p = dquote ∨ line.byte p = squote) ∧ curquote = 0 then
        scanWord line left (p + 1) (line.byte p) true
      else if line.byte p = curquote then scanWord line left (p + 1) 0 quoted
      else match left with
        | 0 => (p + 1, quoted)
        | left + 1 =>
            if line.byte p = backslash ∧ curquote ≠ squote then
              scanWord line left (p + 2) curquote true
            else scanWord line (left + 1) (p + 1) curquote quoted

/-! ## Tokens -/

/-- `TYPE_NORMAL` and the others. -/
inductive TokenType where
  | normal
  | redirectOp
  | sequence
  | eol
  | background
  | pipe
  | and
  | or
  | lparen
  | rparen
  | other
deriving DecidableEq

/-- The `TYPE_` constants. -/
def TokenType.code : TokenType → Int
  | normal => 0
  | redirectOp => 1
  | sequence => 2
  | eol => 3
  | background => 4
  | pipe => 5
  | and => 6
  | or => 7
  | lparen => 8
  | rparen => 9
  | other => -1

/-- Two-character operators. -/
def twoCharType (c : UInt8) : TokenType := if c = '&'.toUInt8 then .and else .or

/-- One-character operators. -/
def operatorType (c : UInt8) : TokenType :=
  if c = ';'.toUInt8 then .sequence
  else if c = '&'.toUInt8 then .background
  else if c = '|'.toUInt8 then .pipe
  else if c = '('.toUInt8 then .lparen
  else if c = ')'.toUInt8 then .rparen
  else .other

/-- A token: `stop` is where the reading pointer ends up. -/
structure Token where
  start : Nat
  type : TokenType
  quoted : Bool
  stop : Nat
deriving DecidableEq

/-- Where the digits before the token end. -/
def Line.digits (line : Line) (s e : Nat) : Nat := line.skip isdigit s e

/-- A `<` or `>` after the digits. -/
def Line.isRedirect (line : Line) (p e : Nat) : Bool :=
  p != e && (line.byte p == '<'.toUInt8 || line.byte p == '>'.toUInt8)

/-- Where a redirection ends, from after its `<` or `>`. -/
def redirectStop (line : Line) (p e : Nat) : Nat :=
  if p ≠ e ∧ line.byte p = '>'.toUInt8 then p + 1 else line.skip isdigit p e

/-- The operator at `p` has two characters. -/
def Line.isTwoChar (line : Line) (p e : Nat) : Bool :=
  (line.byte p == '&'.toUInt8 || line.byte p == '|'.toUInt8)
    && p + 1 != e && line.byte (p + 1) == line.byte p

/-- Read the token that starts at `s`, before `e`. -/
def readToken (line : Line) (s e : Nat) : Token :=
  let p := line.digits s e
  if line.isRedirect p e = true then
    { start := s, type := .redirectOp, quoted := false, stop := redirectStop line (p + 1) e }
  else if p = s ∧ line.isTwoChar p e = true then
    { start := s, type := twoCharType (line.byte p), quoted := false, stop := p + 2 }
  else if p = s ∧ isshellspecial (line.byte p) = true then
    { start := s, type := operatorType (line.byte p), quoted := false, stop := p + 1 }
  else
    let r := scanWord line (e - p) p 0 false
    { start := s, type := .normal, quoted := r.2, stop := r.1 }

/-- A `shell_tokenizer`; `len` is an `unsigned`. -/
structure Tokenizer where
  s : Nat
  end_ : Nat
  type : TokenType
  quoted : Bool
  len : Nat
deriving DecidableEq

/-- `operator++`. -/
def Tokenizer.next (line : Line) (it : Tokenizer) : Tokenizer :=
  let s := skipShellSpace line (it.s + it.len) it.end_
  if s = it.end_ then { s := s, end_ := it.end_, type := .eol, quoted := false, len := 0 }
  else
    let t := readToken line s it.end_
    { s := s, end_ := it.end_, type := t.type, quoted := t.quoted,
      len := (t.stop - s) % 2 ^ 32 }

/-- `shell_tokenizer(first, last)`. -/
def Tokenizer.new (line : Line) (first last : Nat) : Tokenizer :=
  Tokenizer.next line { s := first, end_ := last, type := .eol, quoted := false, len := 0 }

/-- The loop of `str`, with `left` bytes before the end of the token.  `none`:
    `pos` steps over the end, and the loop goes on past it. -/
def strLoop (line : Line) : Nat → Nat → UInt8 → Option (List UInt8)
  | 0, _, _ => some []
  | left + 1, pos, curquote =>
      if (line.byte pos = dquote ∨ line.byte pos = squote) ∧ curquote = 0 then
        strLoop line left (pos + 1) (line.byte pos)
      else if line.byte pos = curquote then strLoop line left (pos + 1) 0
      else if line.byte pos = backslash ∧ line.byte (pos + 1) ≠ 0 ∧ curquote ≠ squote then
        match left with
        | 0 => none
        | left + 1 => (strLoop line left (pos + 2) curquote).map (line.byte (pos + 1) :: ·)
      else (strLoop line left (pos + 1) curquote).map (line.byte pos :: ·)

/-- `std::string(s, len)`. -/
def rawText (line : Line) (s len : Nat) : List UInt8 := (List.range' s len).map line.byte

/-- `str`. -/
def Tokenizer.str (line : Line) (it : Tokenizer) : Option (List UInt8) :=
  if it.quoted = true then strLoop line it.len it.s 0 else some (rawText line it.s it.len)

/-! ## `skip` -/

section Skip

variable {line : Line} {p : UInt8 → Bool}

/-- The scan stops at the first byte that fails the test, or at its end. -/
theorem skipWhile_spec (s left : Nat) :
    s ≤ skipWhile line p s left ∧ skipWhile line p s left ≤ s + left
      ∧ (∀ i, s ≤ i → i < skipWhile line p s left → p (line.byte i) = true)
      ∧ (skipWhile line p s left < s + left → ¬ p (line.byte (skipWhile line p s left)) = true) := by
  induction left generalizing s with
  | zero =>
      rw [skipWhile]
      exact ⟨Nat.le_refl s, Nat.le_refl s, fun i h h' => by omega, fun h => by omega⟩
  | succ left ih =>
      obtain ⟨hle, hend, hall, hstop⟩ := ih (s + 1)
      by_cases hp : p (line.byte s) = true
      · rw [skipWhile, if_pos hp]
        refine ⟨by omega, by omega, ?_, fun h => hstop (by omega)⟩
        intro i hi hlt
        rcases Nat.eq_or_lt_of_le hi with rfl | hi
        · exact hp
        · exact hall i hi hlt
      · rw [skipWhile, if_neg hp]
        exact ⟨Nat.le_refl s, by omega, fun i h h' => by omega, fun _ => hp⟩

variable (line p)

theorem le_skip (s e : Nat) : s ≤ line.skip p s e := (skipWhile_spec s (e - s)).1

variable {s e : Nat}

theorem skip_le (h : s ≤ e) : line.skip p s e ≤ e := by
  have hend : skipWhile line p s (e - s) ≤ s + (e - s) := (skipWhile_spec s (e - s)).2.1
  rw [Line.skip]
  omega

variable {line p}

/-- Every byte that is skipped passes the test. -/
theorem skip_all {i : Nat} (hi : s ≤ i) (h : i < line.skip p s e) : p (line.byte i) = true :=
  (skipWhile_spec s (e - s)).2.2.1 i hi h

/-- The byte behind does not. -/
theorem skip_stop (h : line.skip p s e < e) : ¬ p (line.byte (line.skip p s e)) = true := by
  refine (skipWhile_spec s (e - s)).2.2.2 ?_
  have := le_skip line p s e
  rw [Line.skip] at this h
  omega

/-- What a scan stops at determines it. -/
theorem skip_eq {r : Nat} (hr : s ≤ r) (hre : r ≤ e)
    (hall : ∀ i, s ≤ i → i < r → p (line.byte i) = true)
    (hstop : r < e → ¬ p (line.byte r) = true) : line.skip p s e = r := by
  have hle := skip_le line p (Nat.le_trans hr hre)
  rcases Nat.lt_trichotomy (line.skip p s e) r with h | h | h
  · exact absurd (hall _ (le_skip line p s e) h) (skip_stop (by omega))
  · exact h
  · exact absurd (skip_all hr h) (hstop (by omega))

/-- A scan that is cut off stops at the cut. -/
theorem skip_cut (line : Line) {e' : Nat} (hs : s ≤ e') (he : e' ≤ e) :
    line.skip p s e' = min (line.skip p s e) e' := by
  have hle := le_skip line p s e
  refine skip_eq (by omega) (by omega) ?_ ?_
  · intro i hi hlt
    exact skip_all hi (Nat.lt_of_lt_of_le hlt (Nat.min_le_left _ _))
  · intro hlt
    rw [Nat.min_eq_left (by omega)]
    exact skip_stop (by omega)

/-- `skip_shell_space` goes over whitespace, and a comment. -/
theorem skipShellSpace_cases (line : Line) (s e : Nat) :
    (skipShellSpace line s e = line.skip isspace s e
        ∧ (line.skip isspace s e ≠ e → line.byte (line.skip isspace s e) ≠ '#'.toUInt8))
      ∨ (skipShellSpace line s e = e ∧ line.skip isspace s e ≠ e
        ∧ line.byte (line.skip isspace s e) = '#'.toUInt8) := by
  rw [skipShellSpace]
  split_ifs with h
  · exact Or.inr ⟨rfl, h⟩
  · exact Or.inl ⟨rfl, fun hne hc => h ⟨hne, hc⟩⟩

/-- Blanks and comments are skipped within the region. -/
theorem skipShellSpace_bounds (line : Line) (h : s ≤ e) :
    s ≤ skipShellSpace line s e ∧ skipShellSpace line s e ≤ e := by
  have h1 := le_skip line isspace s e
  have h2 := skip_le line isspace h
  rcases skipShellSpace_cases line s e with ⟨heq, -⟩ | ⟨heq, -⟩ <;> rw [heq] <;>
    exact ⟨by omega, by omega⟩

/-- A token starts with a byte that is neither whitespace nor `#`. -/
theorem skipShellSpace_stop (h : skipShellSpace line s e < e) :
    ¬ isspace (line.byte (skipShellSpace line s e)) = true
      ∧ line.byte (skipShellSpace line s e) ≠ '#'.toUInt8 := by
  rcases skipShellSpace_cases line s e with ⟨heq, hc⟩ | ⟨heq, -⟩
  · rw [heq] at h ⊢
    exact ⟨skip_stop h, hc (Nat.ne_of_lt h)⟩
  · omega

/-- `skip_shell_space` stays where a token starts. -/
theorem skipShellSpace_eq_self (hspace : ¬ isspace (line.byte s) = true)
    (hcomment : line.byte s ≠ '#'.toUInt8) (h : s ≤ e) : skipShellSpace line s e = s := by
  have hskip : line.skip isspace s e = s :=
    skip_eq (Nat.le_refl s) h (fun i h h' => by omega) (fun _ => hspace)
  rw [skipShellSpace, hskip]
  exact if_neg (fun hc => hcomment hc.2)

/-- At the end nothing is skipped. -/
theorem skipShellSpace_end (line : Line) (e : Nat) : skipShellSpace line e e = e := by
  have := skipShellSpace_bounds line (Nat.le_refl e)
  omega

/-- After blanks and comments come none. -/
theorem skipShellSpace_idem (h : s ≤ e) :
    skipShellSpace line (skipShellSpace line s e) e = skipShellSpace line s e := by
  have hle := (skipShellSpace_bounds line h).2
  rcases Nat.lt_or_eq_of_le hle with hlt | heq
  · obtain ⟨hspace, hcomment⟩ := skipShellSpace_stop hlt
    exact skipShellSpace_eq_self hspace hcomment hle
  · rw [heq]
    exact skipShellSpace_end line e

/-- `skip_shell_space` from whitespace before a place where it stays. -/
theorem skipShellSpace_eq {d : Nat} (hs : s ≤ d) (hd : d ≤ e)
    (hws : ∀ i, s ≤ i → i < d → isspace (line.byte i) = true)
    (hself : skipShellSpace line d e = d) : skipShellSpace line s e = d := by
  have hstop : d < e → ¬ isspace (line.byte d) = true ∧ line.byte d ≠ '#'.toUInt8 := by
    intro hlt
    rw [← hself]
    exact skipShellSpace_stop (by omega)
  have hskip : line.skip isspace s e = d := skip_eq hs hd hws (fun hlt => (hstop hlt).1)
  rw [skipShellSpace, hskip]
  exact if_neg (fun hc => (hstop (by omega)).2 hc.2)

/-- `skip_shell_space` on a region that ends earlier. -/
theorem skipShellSpace_cut (line : Line) {e' : Nat} (hs : s ≤ e') (he : e' ≤ e) :
    skipShellSpace line s e' = min (skipShellSpace line s e) e' := by
  have hcut := skip_cut line (p := isspace) hs he
  have hle := skip_le line isspace (Nat.le_trans hs he)
  rcases skipShellSpace_cases line s e with ⟨heq, hc⟩ | ⟨heq, hne, hc⟩ <;>
    rcases skipShellSpace_cases line s e' with ⟨heq', hc'⟩ | ⟨heq', hne', hc'⟩ <;>
    rw [heq, heq']
  · exact hcut
  · have hlt : line.skip isspace s e < e' := by omega
    rw [Nat.min_eq_left (Nat.le_of_lt hlt)] at hcut
    rw [hcut] at hc'
    exact absurd hc' (hc (by omega))
  · rcases Nat.lt_or_ge (line.skip isspace s e) e' with hlt | hge
    · -- the comment starts before the cut
      rw [Nat.min_eq_left (Nat.le_of_lt hlt)] at hcut
      rw [hcut] at hc'
      exact absurd hc (hc' (by omega))
    · omega
  · omega

end Skip

/-! ## Words -/

section Words

variable {line : Line}

/-- A word ends within the region. -/
theorem scanWord_bounds (line : Line) (left p : Nat) (c : UInt8) (q : Bool) :
    p ≤ (scanWord line left p c q).1 ∧ (scanWord line left p c q).1 ≤ p + left := by
  fun_induction scanWord line left p c q <;> omega

/-- One pass of the loop, in the shape of the source. -/
theorem scanWord_succ (left p : Nat) (c : UInt8) (q : Bool) :
    scanWord line (left + 1) p c q
      = if c = 0 ∧ (isspace (line.byte p) = true ∨ isshellspecial (line.byte p) = true) then (p, q)
        else if (line.byte p = dquote ∨ line.byte p = squote) ∧ c = 0 then
          scanWord line left (p + 1) (line.byte p) true
        else if line.byte p = c then scanWord line left (p + 1) 0 q
        else if line.byte p = backslash ∧ left ≠ 0 ∧ c ≠ squote then
          scanWord line (left - 1) (p + 2) c true
        else scanWord line left (p + 1) c q := by
  cases left with
  | zero =>
      rw [scanWord.eq_def]
      simp [scanWord]
  | succ left =>
      rw [scanWord.eq_def]
      simp

/-- A pass that does not leave the loop takes at least one byte. -/
theorem lt_scanWord {left p : Nat} {c : UInt8} {q : Bool}
    (h : ¬ (c = 0 ∧ (isspace (line.byte p) = true ∨ isshellspecial (line.byte p) = true))) :
    p < (scanWord line (left + 1) p c q).1 := by
  have hb := fun k c' q' => (scanWord_bounds line k (p + 1) c' q').1
  have hb2 := (scanWord_bounds line (left - 1) (p + 2) c true).1
  rw [scanWord_succ, if_neg h]
  split_ifs
  · exact hb left (line.byte p) true
  · exact hb left 0 q
  · omega
  · exact hb left c q

/-- A word that the loop takes nothing of is not quoted by it. -/
theorem scanWord_start {left p : Nat} {c : UInt8} {q : Bool}
    (h : (scanWord line left p c q).1 = p) : scanWord line left p c q = (p, q) := by
  cases left with
  | zero => rfl
  | succ left =>
      by_cases hstop :
          c = 0 ∧ (isspace (line.byte p) = true ∨ isshellspecial (line.byte p) = true)
      · rw [scanWord_succ, if_pos hstop]
      · exact absurd h (Nat.ne_of_gt (lt_scanWord hstop))

/-- Once quoted, a word stays quoted. -/
theorem scanWord_quoted (left p : Nat) (c : UInt8) : (scanWord line left p c true).2 = true := by
  induction left using Nat.strongRecOn generalizing p c with
  | _ left ih =>
      cases left with
      | zero => rfl
      | succ left =>
          rw [scanWord_succ]
          split_ifs
          · rfl
          all_goals exact ih _ (by omega) _ _

/-- The loop on a region that ends earlier: it stops there or where it would,
    with no more quotes. -/
theorem scanWord_cut (line : Line) {n m : Nat} (p : Nat) (c : UInt8) (q : Bool) (hm : m ≤ n) :
    (scanWord line m p c q).1 = min (scanWord line n p c q).1 (p + m)
      ∧ ((scanWord line n p c q).1 ≤ p + m → scanWord line m p c q = scanWord line n p c q)
      ∧ ((scanWord line m p c q).2 = true → (scanWord line n p c q).2 = true) := by
  induction m using Nat.strongRecOn generalizing n p c q with
  | _ m ih =>
      -- the scan stops inside what is left
      have hn := scanWord_bounds line n p c q
      cases m with
      | zero =>
          refine ⟨?_, fun h => ?_, ?_⟩
          · show p = _
            omega
          · exact (scanWord_start (by omega)).symm
          · intro (h : q = true)
            rw [h]
            exact scanWord_quoted n p c
      | succ m =>
          obtain ⟨n, rfl⟩ : ∃ k, n = k + 1 := ⟨n - 1, by omega⟩
          -- both scans take the same branch
          rw [scanWord_succ, scanWord_succ]
          split_ifs with h1 h2 h3 h4 h5 h6
          · exact ⟨by show p = min p _; omega, fun _ => rfl, id⟩
          · have := ih m (by omega) (n := n) (p + 1) (line.byte p) true (by omega)
            rwa [Nat.add_right_comm p 1 m] at this
          · have := ih m (by omega) (n := n) (p + 1) 0 q (by omega)
            rwa [Nat.add_right_comm p 1 m] at this
          · have := ih (m - 1) (by omega) (n := n - 1) (p + 2) c true (by omega)
            rwa [show p + 2 + (m - 1) = p + (m + 1) by omega] at this
          · exact absurd ⟨h4.1, by omega, h4.2.2⟩ h5
          · -- a backslash right before the cut escapes nothing
            obtain rfl : m = 0 := by tauto
            have := scanWord_bounds line (n - 1) (p + 2) c true
            refine ⟨?_, fun h => ?_, fun _ => scanWord_quoted (n - 1) (p + 2) c⟩
            · show p + 1 = _
              omega
            · omega
          · have := ih m (by omega) (n := n) (p + 1) c q (by omega)
            rwa [Nat.add_right_comm p 1 m] at this
end Words

/-! ## Tokens -/

section Tokens

variable {line : Line} {s e p : Nat}

theorem le_digits (line : Line) (s e : Nat) : s ≤ line.digits s e := le_skip line isdigit s e

theorem digits_le (line : Line) {s e : Nat} (h : s ≤ e) : line.digits s e ≤ e :=
  skip_le line isdigit h

theorem le_redirectStop (line : Line) (p e : Nat) : p ≤ redirectStop line p e := by
  rw [redirectStop]
  split
  · exact Nat.le_succ p
  · exact le_skip line isdigit p e

theorem redirectStop_le (line : Line) {p : Nat} (h : p ≤ e) : redirectStop line p e ≤ e := by
  rw [redirectStop]
  split_ifs with hp
  · omega
  · exact skip_le line isdigit h

/-- Where a redirection stands. -/
theorem isRedirect_iff {p : Nat} : line.isRedirect p e = true
    ↔ p ≠ e ∧ (line.byte p = '<'.toUInt8 ∨ line.byte p = '>'.toUInt8) := by
  rw [Line.isRedirect, Bool.and_eq_true, bne_iff_ne, Bool.or_eq_true, beq_iff_eq, beq_iff_eq]

/-- Where `&&` or `||` stands. -/
theorem isTwoChar_iff {p : Nat} : line.isTwoChar p e = true
    ↔ (line.byte p = '&'.toUInt8 ∨ line.byte p = '|'.toUInt8) ∧ p + 1 ≠ e
      ∧ line.byte (p + 1) = line.byte p := by
  rw [Line.isTwoChar, Bool.and_eq_true, Bool.and_eq_true, bne_iff_ne, Bool.or_eq_true, beq_iff_eq,
    beq_iff_eq, beq_iff_eq, and_assoc]

@[simp] theorem readToken_start (s e : Nat) : (readToken line s e).start = s := by
  rw [readToken]
  dsimp only
  split_ifs <;> rfl

/-- Where the token ends. -/
theorem readToken_stop (s e : Nat) : (readToken line s e).stop
    = if line.isRedirect (line.digits s e) e = true then
        redirectStop line (line.digits s e + 1) e
      else if line.digits s e = s ∧ line.isTwoChar (line.digits s e) e = true then
        line.digits s e + 2
      else if line.digits s e = s ∧ isshellspecial (line.byte (line.digits s e)) = true then
        line.digits s e + 1
      else (scanWord line (e - line.digits s e) (line.digits s e) 0 false).1 := by
  rw [readToken]
  dsimp only
  split_ifs <;> rfl

/-- The two operators of two characters. -/
theorem twoCharType_eq (c : UInt8) : twoCharType c = .and ∨ twoCharType c = .or := by
  rw [twoCharType]
  split
  · exact Or.inl rfl
  · exact Or.inr rfl

/-- The operators of one character. -/
theorem operatorType_eq (c : UInt8) : operatorType c = .sequence ∨ operatorType c = .background
    ∨ operatorType c = .pipe ∨ operatorType c = .lparen ∨ operatorType c = .rparen
    ∨ operatorType c = .other := by
  rw [operatorType]
  split_ifs <;> tauto

/-- The token is none of the operators. -/
structure IsWord (line : Line) (s e p : Nat) : Prop where
  redirect : ¬ line.isRedirect p e = true
  twoChar : ¬ (p = s ∧ line.isTwoChar p e = true)
  oneChar : ¬ (p = s ∧ isshellspecial (line.byte p) = true)

/-- A word is read as one token. -/
theorem readToken_word (h : IsWord line s e (line.digits s e)) : readToken line s e
    = { start := s, type := .normal,
        quoted := (scanWord line (e - line.digits s e) (line.digits s e) 0 false).2,
        stop := (scanWord line (e - line.digits s e) (line.digits s e) 0 false).1 } := by
  rw [readToken]
  dsimp only
  rw [if_neg h.redirect, if_neg h.twoChar, if_neg h.oneChar]

/-- Only words have type `TYPE_NORMAL`. -/
theorem isWord_of_normal (h : (readToken line s e).type = .normal) :
    IsWord line s e (line.digits s e) := by
  rw [readToken] at h
  dsimp only at h
  generalize line.digits s e = p at h ⊢
  split_ifs at h with h1 h2 h3
  · rcases twoCharType_eq (line.byte p) with h' | h' <;> rw [h'] at h <;> cases h
  · rcases operatorType_eq (line.byte p) with h' | h' | h' | h' | h' | h' <;> rw [h'] at h <;>
      cases h
  · exact ⟨h1, h2, h3⟩

/-- Digits are ordinary bytes of a word. -/
theorem scanWord_digits (hp : s ≤ p) (hpe : p ≤ e)
    (hdigits : ∀ i, s ≤ i → i < p → isdigit (line.byte i) = true) :
    scanWord line (e - s) s 0 false = scanWord line (e - p) p 0 false := by
  induction hk : p - s generalizing s with
  | zero => rw [Nat.le_antisymm hp (Nat.sub_eq_zero_iff_le.mp hk)]
  | succ k ih =>
      have hd := hdigits s (Nat.le_refl s) (by omega)
      obtain ⟨hstop, hquote, hzero, hback⟩ := word_of_isdigit hd
      rw [show e - s = e - (s + 1) + 1 by omega, scanWord_succ, if_neg (fun h => hstop h.2),
        if_neg (fun h => hquote h.1), if_neg hzero, if_neg (fun h => hback h.1)]
      exact ih (by omega) (fun i hi hlt => hdigits i (by omega) hlt) (by omega)

/-- A word, scanned from its start. -/
theorem scanWord_word (hs : s ≤ e) (h : (readToken line s e).type = .normal) :
    scanWord line (e - s) s 0 false = ((readToken line s e).stop, (readToken line s e).quoted) := by
  rw [readToken_word (isWord_of_normal h)]
  exact scanWord_digits (le_digits line s e) (digits_le line hs) (fun i hi hlt => skip_all hi hlt)

/-- Only words are quoted. -/
theorem normal_of_quoted (h : (readToken line s e).quoted = true) :
    (readToken line s e).type = .normal := by
  rw [readToken] at h ⊢
  dsimp only at h ⊢
  split_ifs at h ⊢
  rfl

/-- A token is not empty, and ends in the region. -/
theorem readToken_bounds (hs : s < e) (hspace : ¬ isspace (line.byte s) = true) :
    s < (readToken line s e).stop ∧ (readToken line s e).stop ≤ e := by
  have hp := le_digits line s e
  have hpe := digits_le line (Nat.le_of_lt hs)
  rw [readToken_stop]
  generalize line.digits s e = p at hp hpe ⊢
  split_ifs with h1 h2 h3
  · have h1' := (isRedirect_iff.mp h1).1
    have := le_redirectStop line (p + 1) e
    have := redirectStop_le line (p := p + 1) (e := e) (by omega)
    exact ⟨by omega, by omega⟩
  · obtain ⟨rfl, h2⟩ := h2
    have := (isTwoChar_iff.mp h2).2.1
    exact ⟨by omega, by omega⟩
  · exact ⟨by omega, by omega⟩
  · have hb := scanWord_bounds line (e - p) p 0 false
    refine ⟨?_, by omega⟩
    rcases Nat.lt_or_eq_of_le hp with hlt | rfl
    · omega
    · -- a word without digits starts with a byte that the loop takes
      obtain ⟨k, hk⟩ : ∃ k, e - s = k + 1 := ⟨e - s - 1, by omega⟩
      rw [hk]
      refine lt_scanWord ?_
      rintro ⟨-, h | h⟩
      · exact hspace h
      · exact h3 ⟨rfl, h⟩

/-- Only a byte that starts a comment or a redirection is of type `TYPE_OTHER`. -/
theorem readToken_ne_other (hs : s < e) (hcomment : line.byte s ≠ '#'.toUInt8) :
    (readToken line s e).type ≠ .other := by
  rw [readToken]
  dsimp only
  have hp := le_digits line s e
  generalize line.digits s e = p at hp ⊢
  split_ifs with h1 h2 h3
  · exact TokenType.noConfusion
  · rcases twoCharType_eq (line.byte p) with h | h <;> rw [h] <;> exact TokenType.noConfusion
  · obtain ⟨rfl, h3⟩ := h3
    have hredirect : ¬ (line.byte p = '<'.toUInt8 ∨ line.byte p = '>'.toUInt8) :=
      fun h => h1 (isRedirect_iff.mpr ⟨by omega, h⟩)
    dsimp only
    generalize line.byte p = c at h3 hredirect hcomment
    rcases isshellspecial_iff.mp h3 with rfl | rfl | rfl | rfl | rfl | rfl | rfl | rfl
    · exact absurd (Or.inl rfl) hredirect
    · exact absurd (Or.inr rfl) hredirect
    all_goals first | decide | exact absurd rfl hcomment
  · exact TokenType.noConfusion

theorem not_isspace_of_redirectStop {i : Nat} (hi : p ≤ i) (hlt : i < redirectStop line p e) :
    ¬ isspace (line.byte i) = true := by
  rw [redirectStop] at hlt
  split_ifs at hlt with h
  · obtain rfl : i = p := by omega
    rw [h.2]
    decide
  · exact not_isspace_of_isdigit (skip_all hi hlt)

/-- There is no whitespace in a token that is not a word. -/
theorem not_isspace_of_operator (hs : s < e) (h : (readToken line s e).type ≠ .normal) {i : Nat}
    (hi : s ≤ i) (hlt : i < (readToken line s e).stop) : ¬ isspace (line.byte i) = true := by
  rw [readToken_stop] at hlt
  have hdigits : i < line.digits s e → ¬ isspace (line.byte i) = true :=
    fun h => not_isspace_of_isdigit (skip_all hi h)
  have hword : ¬ IsWord line s e (line.digits s e) := fun hw => h (by rw [readToken_word hw])
  generalize line.digits s e = p at hlt hdigits hword
  split_ifs at hlt with h1 h2 h3
  · rcases Nat.lt_trichotomy i p with hip | rfl | hip
    · exact hdigits hip
    · rcases (isRedirect_iff.mp h1).2 with hc | hc <;> rw [hc] <;> decide
    · exact not_isspace_of_redirectStop hip hlt
  · obtain ⟨rfl, h2⟩ := h2
    obtain ⟨hc, -, hsame⟩ := isTwoChar_iff.mp h2
    rcases Nat.eq_or_lt_of_le hi with rfl | hlt'
    · rcases hc with hc | hc <;> rw [hc] <;> decide
    · obtain rfl : i = p + 1 := by omega
      rw [hsame]
      rcases hc with hc | hc <;> rw [hc] <;> decide
  · obtain ⟨rfl, h3⟩ := h3
    obtain rfl : i = p := by omega
    exact not_isspace_of_special h3
  · exact absurd ⟨h1, h2, h3⟩ hword

/-! ### Regions that end earlier -/

variable {e' : Nat}

/-- A shorter region has the same redirection, as long as it fits. -/
theorem redirectStop_of_le (hp : p ≤ e') (he : e' ≤ e) (hstop : redirectStop line p e ≤ e') :
    redirectStop line p e' = redirectStop line p e := by
  rw [redirectStop] at hstop
  rw [redirectStop, redirectStop]
  by_cases h : p ≠ e ∧ line.byte p = '>'.toUInt8
  · rw [if_pos h] at hstop ⊢
    rw [if_pos ⟨by omega, h.2⟩]
  · rw [if_neg h] at hstop ⊢
    have h' : ¬ (p ≠ e' ∧ line.byte p = '>'.toUInt8) := fun hc => h ⟨by omega, hc.2⟩
    rw [if_neg h', skip_cut _ hp he, Nat.min_eq_left hstop]

/-- A redirection stays one in a longer region. -/
theorem isRedirect_of_le (he : e' ≤ e) (h : line.isRedirect p e' = true) :
    p < e' → line.isRedirect p e = true := by
  intro hlt
  exact isRedirect_iff.mpr ⟨by omega, (isRedirect_iff.mp h).2⟩

/-- So does an operator of two characters. -/
theorem isTwoChar_of_le (he : e' ≤ e) (hp : p < e') (h : line.isTwoChar p e' = true) :
    line.isTwoChar p e = true := by
  obtain ⟨hchar, hne, hsame⟩ := isTwoChar_iff.mp h
  exact isTwoChar_iff.mpr ⟨hchar, by omega, hsame⟩

/-- A region that ends after the token reads the same token. -/
theorem readToken_of_le (hs : s < e') (he : e' ≤ e) (hstop : (readToken line s e).stop ≤ e') :
    readToken line s e' = readToken line s e := by
  have hp := le_digits line s e
  have hcut : line.digits s e' = min (line.digits s e) e' := skip_cut _ (Nat.le_of_lt hs) he
  rw [readToken_stop] at hstop
  rw [readToken, readToken]
  dsimp only
  rw [hcut]
  generalize line.digits s e = p at hp hstop ⊢
  by_cases h1 : line.isRedirect p e = true
  · rw [if_pos h1] at hstop ⊢
    have hle := le_redirectStop line (p + 1) e
    have h1' : line.isRedirect p e' = true :=
      isRedirect_iff.mpr ⟨by omega, (isRedirect_iff.mp h1).2⟩
    rw [Nat.min_eq_left (by omega), if_pos h1', redirectStop_of_le (by omega) he hstop]
  rw [if_neg h1] at hstop ⊢
  by_cases h2 : p = s ∧ line.isTwoChar p e = true
  · rw [if_pos h2] at hstop ⊢
    have h1' : ¬ line.isRedirect p e' = true := fun h => h1 (isRedirect_of_le he h (by omega))
    have h2' : p = s ∧ line.isTwoChar p e' = true := by
      obtain ⟨hchar, -, hsame⟩ := isTwoChar_iff.mp h2.2
      exact ⟨h2.1, isTwoChar_iff.mpr ⟨hchar, by omega, hsame⟩⟩
    rw [Nat.min_eq_left (by omega), if_neg h1', if_pos h2']
  rw [if_neg h2] at hstop ⊢
  have h2' : ¬ (p = s ∧ line.isTwoChar p e' = true) := by
    rintro ⟨rfl, h⟩
    exact h2 ⟨rfl, isTwoChar_of_le he hs h⟩
  by_cases h3 : p = s ∧ isshellspecial (line.byte p) = true
  · rw [if_pos h3] at hstop ⊢
    have h1' : ¬ line.isRedirect p e' = true := fun h => h1 (isRedirect_of_le he h (by omega))
    rw [Nat.min_eq_left (by omega), if_neg h1', if_neg h2', if_pos h3]
  rw [if_neg h3] at hstop ⊢
  have hb := scanWord_bounds line (e - p) p 0 false
  have h1' : ¬ line.isRedirect p e' = true := by
    intro h
    have hne := (isRedirect_iff.mp h).1
    exact h1 (isRedirect_of_le he h (by omega))
  have hword := (scanWord_cut line p 0 false (show e' - p ≤ e - p by omega)).2.1 (by omega)
  rw [Nat.min_eq_left (by omega), if_neg h1', if_neg h2', if_neg h3, hword]

/-- A region that ends inside a word reads a word up to its end. -/
theorem readToken_cut (hs : s < e') (he : e' ≤ e) (hword : (readToken line s e).type = .normal)
    (hstop : e' < (readToken line s e).stop) :
    (readToken line s e').type = .normal ∧ (readToken line s e').stop = e' := by
  have hp := le_digits line s e
  have hcut : line.digits s e' = min (line.digits s e) e' := skip_cut _ (Nat.le_of_lt hs) he
  have h := isWord_of_normal hword
  rw [readToken_word h] at hstop
  dsimp only at hstop
  have h' : IsWord line s e' (line.digits s e') := by
    rw [hcut]
    generalize line.digits s e = p at hp h ⊢
    rcases Nat.lt_or_ge p e' with hlt | hge
    · rw [Nat.min_eq_left (by omega)]
      refine ⟨fun hr => h.redirect (isRedirect_of_le he hr hlt), ?_, h.oneChar⟩
      rintro ⟨rfl, ht⟩
      exact h.twoChar ⟨rfl, isTwoChar_of_le he hlt ht⟩
    · -- the digits go up to the cut
      rw [Nat.min_eq_right hge]
      exact ⟨fun hr => (isRedirect_iff.mp hr).1 rfl, fun ht => by omega, fun ho => by omega⟩
  rw [readToken_word h']
  refine ⟨rfl, ?_⟩
  dsimp only
  rw [hcut]
  generalize line.digits s e = p at hp hstop ⊢
  rcases Nat.lt_or_ge p e' with hlt | hge
  · rw [Nat.min_eq_left (by omega),
      (scanWord_cut line p 0 false (show e' - p ≤ e - p by omega)).1]
    omega
  · rw [Nat.min_eq_right hge, Nat.sub_self, scanWord]

end Tokens

end ShellTokens
