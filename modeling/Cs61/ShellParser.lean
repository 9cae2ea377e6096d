import Cs61.TokenLists
import Cs61.LoopRules

/-! # `shell_parser` — regions of a command line

    A parser is a region of the line and the end of the region that it is part
    of.  `first_delimited` and `next_delimited` run a tokenizer to the next
    delimiter and trim whitespace before it.

    * `new_eq`, `next_eq` — a tokenizer enumerates the token list;
    * `seek_spec` — where the loops over tokens stop;
    * `AtRegion` — what is known about a region that the parsers reach. -/

namespace ShellParser

open LoopRules ShellTokens TokenLists

/-! ## Parsers -/

/-- A parser: the part of the line that it goes through. -/
structure Parser where
  s : Nat
  stop : Nat
  end_ : Nat
deriving DecidableEq

/-- `shell_parser(first, stop, last)`. -/
def Parser.new (line : Line) (first stop last : Nat) : Parser :=
  { s := skipShellSpace line first stop, stop := stop, end_ := last }

/-- `command_line_parser(str)`. -/
def Parser.ofLine (line : Line) : Parser := .new line 0 line.length line.length

/-- `next_op`. -/
def Parser.nextOp (line : Line) (c : Parser) : TokenType := (Tokenizer.new line c.stop c.end_).type

/-- `end`. -/
def Parser.endParser (line : Line) (c : Parser) : Parser := .new line c.stop c.stop c.end_

/-- `operator!=`. -/
def Parser.differs (c d : Parser) : Bool := c.s != d.s || c.stop != d.stop

/-- `1 << type`. -/
def TokenType.bit (type : TokenType) : BitVec 64 := 1#64 <<< type.code.toNat

/-- `TYPEMASK_CONDITIONAL`: the tokens that end a conditional. -/
def typemaskConditional : BitVec 64 :=
  TokenType.bit .sequence ||| TokenType.bit .eol ||| TokenType.bit .background

/-- `TYPEMASK_PIPELINE`: those that end a pipeline. -/
def typemaskPipeline : BitVec 64 :=
  typemaskConditional ||| TokenType.bit .and ||| TokenType.bit .or

/-- `TYPEMASK_COMMAND`: those that end a command. -/
def typemaskCommand : BitVec 64 := typemaskPipeline ||| TokenType.bit .pipe

/-- `type >= 0 && (fl & (1 << type)) != 0`. -/
def delimits (fl : BitVec 64) (type : TokenType) : Bool :=
  decide (0 ≤ type.code) && (fl &&& TokenType.bit type != 0#64)

/-- One pass of `while (it.type() >= 0 && (fl & (1 << it.type())) == 0) ++it`. -/
def seekBody (line : Line) (fl : BitVec 64) (it : Tokenizer) : Turn Tokenizer Tokenizer :=
  if 0 ≤ it.type.code ∧ fl &&& TokenType.bit it.type = 0#64 then .again (it.next line)
  else .leave it

/-- `while (it._s > _s && isspace(it._s[-1])) --it._s`. -/
def trim (line : Line) (s : Nat) : Nat → Nat
  | 0 => 0
  | d + 1 => if s < d + 1 ∧ isspace (line.byte d) = true then trim line s d else d + 1

/-- `first_delimited`. -/
def Parser.firstDelimited (line : Line) (fl : BitVec 64) (c : Parser) (fuel : Nat) :
    Option Parser :=
  (run (seekBody line fl) fuel (.new line c.s c.stop)).map fun it =>
    .new line c.s (trim line c.s it.s) c.stop

/-- `next_delimited`. -/
def Parser.nextDelimited (line : Line) (fl : BitVec 64) (c : Parser) (fuel : Nat) :
    Option Parser :=
  let it := Tokenizer.new line c.stop c.end_
  let it := if delimits fl it.type = true then it.next line else it
  (run (seekBody line fl) fuel it).map fun it' =>
    { s := it.s, stop := trim line it.s it'.s, end_ := c.end_ }

/-- `for (c = X_begin(); c != end(); ++c)`. -/
def Parser.children (line : Line) (fl : BitVec 64) (c : Parser) (inner outer : Nat) :
    Option (List Parser) :=
  (c.firstDelimited line fl inner).bind
    (collect (fun d => d.differs (c.endParser line)) (fun d => d.nextDelimited line fl inner) outer)

/-- `for (it = token_begin(); it; ++it)`. -/
def Parser.tokenLoop (line : Line) (c : Parser) (fuel : Nat) : Option (List Tokenizer) :=
  collect (fun it => it.s != it.end_) (fun it => some (it.next line)) fuel (.new line c.s c.stop)

/-! ## Tokenizers and token lists -/

variable {line : Line} {s e : Nat} {fl : BitVec 64}

/-- The tokenizer at a token. -/
def atToken (e : Nat) (t : Token) : Tokenizer where
  s := t.start
  end_ := e
  type := t.type
  quoted := t.quoted
  len := (t.stop - t.start) % 2 ^ 32

/-- The tokenizer at the first of the tokens before `e`. -/
def tokenizer (e : Nat) : List Token → Tokenizer
  | [] => { s := e, end_ := e, type := .eol, quoted := false, len := 0 }
  | t :: _ => atToken e t

/-- `operator++` goes to the first token from `it._s + it._len`. -/
theorem next_eq (line : Line) (it : Tokenizer) (h : it.s + it.len ≤ it.end_) :
    it.next line = tokenizer it.end_ (tokens line it.end_ (it.s + it.len)) := by
  rw [Tokenizer.next]
  rcases tokens_cases line h with ⟨hnil, hskip⟩ | ⟨t, ht, hskip, -, hcons⟩
  · rw [hnil, hskip]
    exact if_pos rfl
  · have hne : t.start ≠ it.end_ := Nat.ne_of_lt ht.lt
    rw [hcons, hskip]
    dsimp only
    rw [if_neg hne, ht.read]
    rfl

/-- A new tokenizer is at the first token. -/
theorem new_eq (h : s ≤ e) : Tokenizer.new line s e = tokenizer e (tokens line e s) :=
  next_eq _ _ h

/-- The tokens of a region. -/
def Parser.tokenList (line : Line) (c : Parser) : List Token := tokens line c.stop c.s

/-- Tokens whose length fits the `unsigned` field. -/
def Short (L : List Token) : Prop := ∀ t ∈ L, t.stop - t.start < 2 ^ 32

theorem Short.tail {t : Token} {L : List Token} (h : Short (t :: L)) : Short L :=
  fun u hu => h u (List.mem_cons_of_mem t hu)

theorem Short.chunk {c L : List Token} (h : Short (c ++ L)) : Short c :=
  fun u hu => h u (List.mem_append_left L hu)

theorem Short.suffix {c L : List Token} (h : Short (c ++ L)) : Short L :=
  fun u hu => h u (List.mem_append_right c hu)

/-- `operator++` goes to the next token. -/
theorem next_cons {t : Token} {L : List Token} (h : s ≤ e) (hL : tokens line e s = t :: L)
    (hshort : Short (t :: L)) : (tokenizer e (t :: L)).next line = tokenizer e L := by
  obtain ⟨htok, -, -, hrest⟩ := tokens_inv h hL
  have hlt := htok.lt_stop
  have hlen : (atToken e t).s + (atToken e t).len = t.stop := by
    rw [atToken, Nat.mod_eq_of_lt (hshort t List.mem_cons_self)]
    exact Nat.add_sub_cancel' (Nat.le_of_lt hlt)
  rw [tokenizer, next_eq _ _ (hlen ▸ htok.stop_le), hlen]
  exact congrArg (tokenizer e) hrest

/-- At the end, `next` stays. -/
theorem next_nil (line : Line) (e : Nat) : (tokenizer e []).next line = tokenizer e [] := by
  refine (next_eq line (tokenizer e []) (Nat.le_refl e)).trans ?_
  show tokenizer e (tokens line e e) = _
  rw [tokens_end]

/-! ## The loops -/

/-- The tokens at which a parser stops. -/
theorem delimits_iff {type : TokenType} : delimits fl type = true
    ↔ 0 ≤ type.code ∧ fl &&& TokenType.bit type ≠ 0#64 := by
  rw [delimits, Bool.and_eq_true, decide_eq_true_iff, bne_iff_ne]

/-- A delimiter ends the search. -/
theorem seekBody_leave {it : Tokenizer} (h : delimits fl it.type = true) :
    seekBody line fl it = .leave it := by
  rw [seekBody, if_neg]
  exact fun hc => (delimits_iff.mp h).2 hc.2

/-- Any other token is passed. -/
theorem seekBody_again {it : Tokenizer} (hother : it.type ≠ .other)
    (h : ¬ delimits fl it.type = true) : seekBody line fl it = .again (it.next line) := by
  have hcode : 0 ≤ it.type.code := by
    revert hother
    cases it.type <;> intro hother
    case other => exact absurd rfl hother
    all_goals decide
  rw [seekBody, if_pos]
  refine ⟨hcode, ?_⟩
  by_contra hne
  exact h (delimits_iff.mpr ⟨hcode, hne⟩)

/-- The loop over tokens stops at the first delimiter. -/
theorem seek_spec {c rest : List Token} (hend : ToEnd line e (c ++ rest))
    (hshort : Short (c ++ rest)) (hc : ∀ t ∈ c, ¬ delimits fl t.type = true)
    (hrest : delimits fl (tokenizer e rest).type = true) :
    Returns (fun n => run (seekBody line fl) n (tokenizer e (c ++ rest))) (tokenizer e rest) := by
  induction c with
  | nil => exact returns_leave (seekBody_leave hrest)
  | cons t c ih =>
      obtain ⟨htok, -⟩ := hend.isToken (t := t) List.mem_cons_self
      have hnext : (tokenizer e (t :: (c ++ rest))).next line = tokenizer e (c ++ rest) :=
        next_cons hend.nextStart_le hend.tokens_eq hshort
      have hbody : seekBody line fl (tokenizer e (t :: (c ++ rest)))
          = .again ((tokenizer e (t :: (c ++ rest))).next line) :=
        seekBody_again htok.ne_other (hc t List.mem_cons_self)
      rw [hnext] at hbody
      refine returns_again hbody ?_
      exact ih (hend.suffix (c := [t])) hshort.tail (fun u hu => hc u (List.mem_cons_of_mem t hu))

/-- `trim` takes away the blanks at the end, and nothing else. -/
theorem trim_spec (line : Line) {d : Nat} (h : s ≤ d) : s ≤ trim line s d ∧ trim line s d ≤ d
    ∧ (∀ i, trim line s d ≤ i → i < d → isspace (line.byte i) = true)
    ∧ (s < trim line s d → ¬ isspace (line.byte (trim line s d - 1)) = true) := by
  induction d with
  | zero =>
      rw [trim]
      exact ⟨h, Nat.le_refl 0, fun i _ hi => absurd hi (Nat.not_lt_zero i), fun hlt => by omega⟩
  | succ d ih =>
      rw [trim]
      split_ifs with hc
      · obtain ⟨hle, hd, hws, htight⟩ := ih (by omega)
        refine ⟨hle, by omega, ?_, htight⟩
        intro i hi hlt
        rcases Nat.lt_succ_iff_lt_or_eq.mp hlt with hlt | rfl
        · exact hws i hi hlt
        · exact hc.2
      · refine ⟨h, Nat.le_refl _, fun i hi hlt => by omega, fun hlt hsp => hc ⟨hlt, ?_⟩⟩
        rwa [Nat.add_sub_cancel] at hsp

/-- Trimming stops after the last byte that is not whitespace. -/
theorem lt_trim {d i : Nat} (h : s ≤ i) (hi : i < d) (hns : ¬ isspace (line.byte i) = true) :
    i < trim line s d := by
  by_contra hge
  exact hns ((trim_spec _ (Nat.le_trans h (Nat.le_of_lt hi))).2.2.1 i (Nat.le_of_not_lt hge) hi)

end ShellParser
