import Cs61.CommandSplit

/-! # Token cover — the tokens of a region, and what is between them

    `shell_tokenizer(first, last)` and `++` go through a region to its end.

    * `covers_tokens` — the tokens lie in order, with whitespace between them;
    * `enumerate_covers` — so do the tokens that the loop sees;
    * `long_word_stays` — a word of 2^32 bytes stops the loop. -/

namespace TokenCover

open LoopRules ShellTokens TokenLists ShellParser CommandSplit

/-- `for (shell_tokenizer it(first, last); it.type() != TYPE_EOL; ++it)`. -/
def enumerate (line : Line) (first last fuel : Nat) : Option (List Tokenizer) :=
  collect (fun it => it.type != .eol) (fun it => some (it.next line)) fuel (.new line first last)

/-- There are only blanks from `s` to `e`. -/
def Blank (line : Line) (s e : Nat) : Prop :=
  ∀ i, s ≤ i → i < e → isspace (line.byte i) = true

/-- From `s` to `e` there are the tokens, in order and none of them empty, with
    whitespace before each, and then whitespace and perhaps a comment. -/
def Covers (line : Line) (e : Nat) : Nat → List Tokenizer → Prop
  | s, [] => ∃ m, s ≤ m ∧ m ≤ e ∧ Blank line s m ∧ (m = e ∨ line.byte m = '#'.toUInt8)
  | s, it :: L => s ≤ it.s ∧ Blank line s it.s ∧ 1 ≤ it.len ∧ it.s + it.len ≤ e
      ∧ it.type ≠ .eol ∧ it.type ≠ .other ∧ Covers line e (it.s + it.len) L

variable {line : Line} {s e : Nat}

/-- The tokens lie in the region. -/
theorem Covers.bounds {L : List Tokenizer} (h : Covers line e s L) :
    ∀ it ∈ L, s ≤ it.s ∧ 1 ≤ it.len ∧ it.s + it.len ≤ e ∧ it.type ≠ .other := by
  induction L generalizing s with
  | nil => exact fun it hit => absurd hit List.not_mem_nil
  | cons it L ih =>
      obtain ⟨hs, -, hlen, hend, -, hother, hrest⟩ := h
      rintro it' (_ | ⟨_, hit'⟩)
      · exact ⟨hs, hlen, hend, hother⟩
      · obtain ⟨hs', hbounds⟩ := ih hrest it' hit'
        exact ⟨by omega, hbounds⟩

/-- The tokens do not overlap. -/
theorem Covers.pairwise {L : List Tokenizer} (h : Covers line e s L) :
    L.Pairwise fun a b => a.s + a.len ≤ b.s := by
  induction L generalizing s with
  | nil => exact List.Pairwise.nil
  | cons it L ih =>
      obtain ⟨-, -, -, -, -, -, hrest⟩ := h
      exact List.pairwise_cons.mpr ⟨fun b hb => (hrest.bounds b hb).1, ih hrest⟩

/-! ## What is skipped -/

theorem blank_skip (h : skipShellSpace line s e < e) : Blank line s (skipShellSpace line s e) := by
  rcases skipShellSpace_cases line s e with ⟨heq, -⟩ | ⟨heq, -⟩
  · rw [heq]
    exact fun i hi hlt => skip_all hi hlt
  · omega

/-- Behind the last token: whitespace, and perhaps a comment to the end. -/
theorem covers_nil (hs : s ≤ e) (h : skipShellSpace line s e = e) : Covers line e s [] := by
  refine ⟨line.skip isspace s e, le_skip line isspace s e, skip_le line isspace hs,
    fun i hi hlt => skip_all hi hlt, ?_⟩
  rcases skipShellSpace_cases line s e with ⟨heq, -⟩ | ⟨-, -, hcomment⟩
  · exact .inl (heq.symm.trans h)
  · exact .inr hcomment

theorem isToken_ne_eol {t : Token} (h : IsToken line e t) : t.type ≠ .eol := by
  rw [← h.read, readToken]
  dsimp only
  split_ifs
  · exact TokenType.noConfusion
  · rcases twoCharType_eq (line.byte (line.digits t.start e)) with h | h <;> rw [h] <;>
      exact TokenType.noConfusion
  · rcases operatorType_eq (line.byte (line.digits t.start e)) with h | h | h | h | h | h <;>
      rw [h] <;> exact TokenType.noConfusion
  · exact TokenType.noConfusion

/-! ## The cover -/

/-- The tokens cover the region. -/
theorem covers_tokens (hs : s ≤ e) (hshort : Short (tokens line e s)) :
    Covers line e s ((tokens line e s).map (atToken e)) := by
  induction hn : (tokens line e s).length generalizing s with
  | zero =>
      have hnil := List.length_eq_zero_iff.mp hn
      rw [hnil]
      refine covers_nil hs ?_
      rw [← nextStart_tokens line hs, hnil]
      rfl
  | succ n ih =>
      rcases tokens_cases line hs with ⟨hnil, -⟩ | ⟨t, ht, hskip, hle, hcons⟩
      · rw [hnil] at hn
        cases hn
      rw [hcons] at hshort hn ⊢
      have hlt := ht.lt_stop
      have hlen : (atToken e t).len = t.stop - t.start :=
        Nat.mod_eq_of_lt (hshort t List.mem_cons_self)
      have hstop : (atToken e t).s + (atToken e t).len = t.stop := by
        rw [hlen]
        exact Nat.add_sub_cancel' (Nat.le_of_lt hlt)
      refine ⟨hle, ?_, by omega, hstop ▸ ht.stop_le, isToken_ne_eol ht, ht.ne_other, ?_⟩
      · show Blank line s t.start
        rw [← hskip]
        exact blank_skip (hskip ▸ ht.lt)
      · rw [hstop]
        exact ih ht.stop_le hshort.tail (Nat.succ.inj hn)

/-- The loop sees the token list. -/
theorem enumerate_spec (hs : s ≤ e) (hshort : Short (tokens line e s)) :
    Returns (enumerate line s e) ((tokens line e s).map (atToken e)) := by
  have hgen : ∀ T, ToEnd line e T → Short T →
      Returns (fun n => collect (fun it : Tokenizer => it.type != .eol)
        (fun it => some (it.next line)) n (tokenizer e T)) (T.map (atToken e)) := by
    intro T
    induction T with
    | nil => exact fun _ _ => returns_stop (bne_self_eq_false TokenType.eol)
    | cons t T ih =>
        intro hend hT
        have heol := isToken_ne_eol (hend.isToken (t := t) List.mem_cons_self).1
        have hnext : some ((tokenizer e (t :: T)).next line) = some (tokenizer e T) :=
          congrArg some (next_cons hend.nextStart_le hend.tokens_eq hT)
        exact returns_step (bne_iff_ne.mpr heol) hnext (ih (hend.suffix (c := [t])) hT.tail)
  refine (hgen _ ⟨s, hs, rfl⟩ hshort).congr ?_
  intro n
  rw [enumerate, new_eq hs]

/-- **EVERY REGION** is covered by the tokens that the loop sees, and the loop
    ends. -/
theorem enumerate_covers (line : Line) (first last : Nat) (hregion : first ≤ last)
    (hshort : Short (tokens line last first)) :
    ∃ L, Returns (enumerate line first last) L ∧ Covers line last first L
      ∧ L.Pairwise (fun a b => a.s + a.len ≤ b.s)
      ∧ ∀ it ∈ L, 1 ≤ it.len ∧ first ≤ it.s ∧ it.s + it.len ≤ last ∧ it.type ≠ .other := by
  have hcovers := covers_tokens hregion hshort
  refine ⟨_, enumerate_spec hregion hshort, hcovers, hcovers.pairwise, fun it hit => ?_⟩
  obtain ⟨hs, hlen, hend, hother⟩ := hcovers.bounds it hit
  exact ⟨hlen, hs, hend, hother⟩

/-- The theorem's conditions can be met. -/
theorem enumerate_covers_small :
    ∃ L, Returns (enumerate ⟨[97, 32, 59, 98, 35]⟩ 1 5) L ∧ Covers ⟨[97, 32, 59, 98, 35]⟩ 5 1 L
      ∧ L.Pairwise (fun a b => a.s + a.len ≤ b.s)
      ∧ ∀ it ∈ L, 1 ≤ it.len ∧ 1 ≤ it.s ∧ it.s + it.len ≤ 5 ∧ it.type ≠ .other :=
  enumerate_covers ⟨[97, 32, 59, 98, 35]⟩ 1 5 (by decide) fun t ht => by
    have := (isToken_of_mem (s := 1) (e := 5) (by decide) ht).1.stop_le
    omega

/-- A word whose length does not fit: every pass ends where it started. -/
theorem enumerate_letters {n : Nat} (hn : 0 < n) (hwrap : n % 2 ^ 32 = 0) (fuel : Nat) :
    enumerate (letters n) 0 n fuel = none := by
  have hloop : ∀ k, collect (fun it : Tokenizer => it.type != .eol)
      (fun it => some (it.next (letters n))) k
      { s := 0, end_ := n, type := .normal, quoted := false, len := 0 } = none := by
    intro k
    induction k with
    | zero => rfl
    | succ k ih =>
        have hnormal : (TokenType.normal != .eol) = true := by decide
        rw [collect, if_pos hnormal, next_letters hn hwrap rfl rfl rfl]
        dsimp only
        rw [ih]
        rfl
  rw [enumerate, Tokenizer.new, next_letters hn hwrap rfl rfl rfl, hloop]

/-- **A WORD OF 2^32 BYTES** has length 0, and the loop stays on it. -/
theorem long_word_stays : ¬∃ L, Returns (enumerate (letters (2 ^ 32)) 0 (2 ^ 32)) L := by
  rintro ⟨L, n, hn⟩
  have hret := hn n (Nat.le_refl n)
  rw [enumerate_letters (by decide) (by decide)] at hret
  cases hret

end TokenCover
