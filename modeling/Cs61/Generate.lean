import Cs61.LoopRules
import Mathlib.Tactic.Ring

/-! # Generated test inputs

    `generate` writes pseudorandom text or binary data in chunks: a buffer is
    filled until it holds 65536 bytes or more, which do not depend on how many are
    wanted, and only the last buffer is cut.  So the bytes written for one type and
    seed are the first ones of one sequence (`generate_first`), whatever the size
    is. -/

namespace Generate

open LoopRules

/-! ## The pseudorandom number generator -/

/-- `splitmix64::operator()`: the number, and the new state. -/
def splitmix64 (state : BitVec 64) : BitVec 64 × BitVec 64 :=
  let state := state + 0x9E3779B97F4A7C15#64
  let z := state
  let z := (z ^^^ (z >>> 30)) * 0xBF58476D1CE4E5B9#64
  let z := (z ^^^ (z >>> 27)) * 0x94D049BB133111EB#64
  (z ^^^ (z >>> 31), state)

/-! ## The data -/

/-- The words of a generated text. -/
def words : List String :=
  ["a", "about", "above", "after", "again", "against", "air", "all", "almost", "along", "also",
    "always", "among", "an", "and", "animal", "another", "answer", "any", "are", "around", "as",
    "ask", "at", "away", "back", "be", "because", "been", "before", "began", "begin", "being",
    "below", "between", "big", "book", "both", "boy", "but", "by", "call", "came", "can", "car",
    "carry", "change", "children", "city", "close", "come", "could", "country", "cut", "day",
    "did", "different", "do", "does", "don't", "down", "each", "earth", "eat", "end", "enough",
    "even", "every", "example", "eye", "face", "family", "far", "father", "feet", "few", "find",
    "first", "follow", "food", "for", "form", "found", "four", "from", "get", "girl", "give",
    "go", "good", "got", "great", "group", "grow", "had", "hand", "hard", "has", "have", "he",
    "head", "hear", "help", "her", "here", "high", "him", "his", "home", "house", "how", "idea",
    "if", "important", "in", "Indian", "into", "is", "it", "its", "it's", "just", "keep",
    "kind", "know", "land", "large", "last", "later", "learn", "leave", "left", "let", "letter",
    "life", "light", "like", "line", "list", "little", "live", "long", "look", "made", "make",
    "man", "many", "may", "me", "mean", "men", "might", "mile", "miss", "more", "most",
    "mother", "mountain", "move", "much", "must", "my", "name", "near", "need", "never", "new",
    "next", "night", "no", "not", "now", "number", "of", "off", "often", "old", "on", "once",
    "one", "only", "open", "or", "other", "our", "out", "over", "own", "page", "paper", "part",
    "people", "picture", "place", "plant", "play", "point", "put", "question", "quick",
    "quickly", "quite", "read", "really", "right", "river", "run", "said", "same", "saw", "say",
    "school", "sea", "second", "see", "seem", "sentence", "set", "she", "should", "show",
    "side", "small", "so", "some", "something", "sometimes", "song", "soon", "sound", "spell",
    "start", "state", "still", "stop", "story", "study", "such", "take", "talk", "tell", "than",
    "that", "the", "their", "them", "then", "there", "these", "they", "thing", "think", "this",
    "those", "thought", "three", "through", "time", "to", "together", "too", "took", "tree",
    "try", "turn", "two", "under", "until", "up", "us", "use", "very", "walk", "want", "was",
    "watch", "water", "way", "we", "well", "went", "were", "what", "when", "where", "which",
    "while", "white", "who", "why", "will", "with", "without", "word", "work", "world", "would",
    "write", "year", "you", "young", "your"]

/-- The bytes of a text; all texts here are ASCII. -/
def textBytes (s : String) : List UInt8 := s.toList.map fun c => UInt8.ofNat c.toNat

/-- The generator's state and the buffer. -/
structure Gen where
  rng : BitVec 64
  buf : List UInt8

/-- The generator's state, the bytes to write, and those written. -/
structure Output where
  rng : BitVec 64
  size : Nat
  out : List UInt8

section Producer

/-! What follows is the same for every generator `next`. -/

variable (next : BitVec 64 → BitVec 64 × BitVec 64)

/-- A word, after a space unless it is word 0 of its line. -/
def addWord (i : Nat) (g : Gen) : Gen :=
  let buf := if i ≠ 0 then g.buf ++ textBytes " " else g.buf
  let (x, rng) := next g.rng
  ⟨rng, buf ++ textBytes (words.getD (x.toNat % words.length) "")⟩

/-- The last `n` words of a line, the first of which is word `i`. -/
def addWords : Nat → Nat → Gen → Gen
  | 0, _, g => g
  | n + 1, i, g => addWords n (i + 1) (addWord next i g)

/-- A line of 1–12 words. -/
def addLine (g : Gen) : Gen :=
  let (x, rng) := next g.rng
  let g := addWords next (x.toNat % 12 + 1) 0 ⟨rng, g.buf⟩
  ⟨g.rng, g.buf ++ textBytes "\n"⟩

/-- Eight random bytes. -/
def addNumber (g : Gen) : Gen :=
  let (x, rng) := next g.rng
  ⟨rng, g.buf ++ (List.range 8).map fun i => UInt8.ofNat (x.toNat / 256 ^ i)⟩

/-- `'t'` stands for text, and every other type for binary data. -/
def addPiece (type : BitVec 8) : Gen → Gen :=
  if type = 0x74#8 then addLine next else addNumber next

/-! ## The loops -/

/-- `while (buf.size() < 65536)`. -/
def fillBody (add : Gen → Gen) (g : Gen) : Turn Gen Gen :=
  if g.buf.length < 65536 then .again (add g) else .leave g

/-- One chunk, from a cleared buffer. -/
def fill (type : BitVec 8) (rng : BitVec 64) (fuel : Nat) : Option Gen :=
  run (fillBody (addPiece next type)) fuel ⟨rng, []⟩

/-- The body of `while (size > 0)`. -/
def writeChunk (type : BitVec 8) (inner : Nat) (s : Output) : Option Output :=
  (fill next type s.rng inner).map fun g =>
    let n := min g.buf.length s.size
    ⟨g.rng, s.size - n, s.out ++ g.buf.take n⟩

/-- The loop that fills the output with chunks. -/
def writeChunks (type : BitVec 8) (inner outer : Nat) (s : Output) : Option (List UInt8) :=
  (forLoop (fun s => decide (0 < s.size)) (writeChunk next type inner) outer s).map Output.out

end Producer

/-- `generate(out, type, size, seed)`: the bytes written to `out`; a `char` is signed. -/
def generate (type : BitVec 8) (size : Nat) (seed : BitVec 32) (inner outer : Nat) :
    Option (List UInt8) :=
  writeChunks splitmix64 type inner outer
    ⟨(seed.setWidth 64 <<< 8) ||| type.signExtend 64, size, []⟩

variable {next : BitVec 64 → BitVec 64 × BitVec 64} {type : BitVec 8} {rng : BitVec 64} {g : Gen}
  {s : Output}

/-! ## Chunks -/

/-- Words only add to the text. -/
theorem length_addWords (n i : Nat) (g : Gen) :
    g.buf.length ≤ (addWords next n i g).buf.length := by
  induction n generalizing i g with
  | zero => exact Nat.le_refl _
  | succ n ih =>
      have hword : g.buf.length ≤ (addWord next i g).buf.length := by
        rw [addWord, List.length_append]
        split_ifs
        · rw [List.length_append]
          omega
        · exact Nat.le_add_right _ _
      rw [addWords]
      exact Nat.le_trans hword (ih _ _)

/-- A line ends with a newline, and a number has eight bytes. -/
theorem length_addPiece (type : BitVec 8) (g : Gen) :
    g.buf.length < (addPiece next type g).buf.length := by
  rw [addPiece]
  split_ifs
  · have hwords := @length_addWords next ((next g.rng).1.toNat % 12 + 1) 0
      ⟨(next g.rng).2, g.buf⟩
    have hnewline : (textBytes "\n").length = 1 := by decide
    rw [addLine, List.length_append, hnewline]
    exact Nat.lt_succ_of_le hwords
  · rw [addNumber, List.length_append, List.length_map, List.length_range]
    exact Nat.lt_add_of_pos_right (by decide)

/-- A buffer is filled up. -/
theorem fill_returns (next : BitVec 64 → BitVec 64 × BitVec 64) (type : BitVec 8) (rng : BitVec 64) :
    ∃ g, Returns (fill next type rng) g ∧ 65536 ≤ g.buf.length := by
  have hstep : ∀ g : Gen, True →
      (∃ r, fillBody (addPiece next type) g = .leave r ∧ 65536 ≤ r.buf.length) ∨
      (∃ g', fillBody (addPiece next type) g = .again g' ∧ True
        ∧ 65536 - g'.buf.length < 65536 - g.buf.length
        ∧ ∀ r : Gen, 65536 ≤ r.buf.length → 65536 ≤ r.buf.length) := by
    intro g _
    have hadd := @length_addPiece next type g
    by_cases hlength : g.buf.length < 65536
    · exact Or.inr ⟨_, if_pos hlength, trivial, by omega, fun _ hr => hr⟩
    · exact Or.inl ⟨g, if_neg hlength, Nat.le_of_not_lt hlength⟩
  obtain ⟨g, hg, hrun⟩ := run_measure (fun _ => True) (fun g : Gen => 65536 - g.buf.length)
    (fun _ g : Gen => 65536 ≤ g.buf.length) hstep ⟨rng, []⟩ trivial
  exact ⟨g, ⟨_, fun fuel hfuel => hrun fuel (Nat.lt_of_succ_le hfuel)⟩, hg⟩

/-! ## One sequence of bytes -/

/-- There is nothing left to write. -/
theorem writeChunks_done (hsize : s.size = 0) :
    Returns₂ (fun inner outer => writeChunks next type inner outer s) s.out := by
  refine ⟨1, ?_⟩
  intro inner outer _ ho
  obtain ⟨k, rfl⟩ : ∃ k, outer = k + 1 := ⟨outer - 1, by omega⟩
  show writeChunks next type inner (k + 1) s = some s.out
  rw [writeChunks, forLoop, if_neg (by rw [hsize]; decide)]
  rfl

/-- One chunk is written, and then the others. -/
theorem writeChunks_step {o : List UInt8} (hsize : 0 < s.size) (hfill : Returns (fill next type s.rng) g)
    (h : Returns₂ (fun inner outer => writeChunks next type inner outer
      ⟨g.rng, s.size - min g.buf.length s.size, s.out ++ g.buf.take (min g.buf.length s.size)⟩) o) :
    Returns₂ (fun inner outer => writeChunks next type inner outer s) o := by
  obtain ⟨b, hb⟩ := hfill
  obtain ⟨c, hc⟩ := h
  refine ⟨b + c + 1, ?_⟩
  intro inner outer hi ho
  obtain ⟨k, rfl⟩ : ∃ k, outer = k + 1 := ⟨outer - 1, by omega⟩
  have hrest := hc inner k (by omega) (by omega)
  show writeChunks next type inner (k + 1) s = some o
  rw [writeChunks, forLoop, if_pos (decide_eq_true hsize), writeChunk, hb inner (by omega)]
  exact hrest

/-- **SEQUENCE**: what is written for any smaller size is the beginning of what is
    written for `n`. -/
theorem writeChunks_first (next : BitVec 64 → BitVec 64 × BitVec 64) (type : BitVec 8) (n : Nat) : ∀ rng, ∃ o : List UInt8, o.length = n
    ∧ ∀ m out, m ≤ n →
      Returns₂ (fun inner outer => writeChunks next type inner outer ⟨rng, m, out⟩) (out ++ o.take m) := by
  induction n using Nat.strongRecOn with
  | _ n ih =>
      intro rng
      obtain ⟨g, hfill, hfull⟩ := fill_returns next type rng
      -- A size that the first chunk is enough for.
      have hshort : ∀ (o : List UInt8) m out, m ≤ g.buf.length → o.take m = g.buf.take m →
          Returns₂ (fun inner outer => writeChunks next type inner outer ⟨rng, m, out⟩)
            (out ++ o.take m) := by
        intro o m out hm ho
        rw [ho]
        by_cases hzero : m = 0
        · rw [hzero, List.take_zero, List.append_nil]
          exact writeChunks_done rfl
        · refine writeChunks_step (Nat.pos_of_ne_zero hzero) hfill ?_
          dsimp only
          rw [Nat.min_eq_right hm, Nat.sub_self]
          exact writeChunks_done rfl
      by_cases hn : n ≤ g.buf.length
      · refine ⟨g.buf.take n, List.length_take_of_le hn, ?_⟩
        intro m out hm
        refine hshort _ m out (Nat.le_trans hm hn) ?_
        rw [List.take_take, Nat.min_eq_left hm]
      · obtain ⟨o, hlength, ho⟩ := ih (n - g.buf.length) (by omega) g.rng
        refine ⟨g.buf ++ o, ?_, ?_⟩
        · rw [List.length_append, hlength]
          omega
        · intro m out hm
          by_cases hle : m ≤ g.buf.length
          · exact hshort _ m out hle (List.take_append_of_le_length hle)
          · refine writeChunks_step (Nat.lt_of_lt_of_le (by omega) (Nat.le_of_not_le hle)) hfill ?_
            have hrest := ho (m - g.buf.length) (out ++ g.buf) (by omega)
            dsimp only
            rw [Nat.min_eq_left (by omega), List.take_length, List.take_append,
              List.take_of_length_le (Nat.le_of_not_le hle), ← List.append_assoc]
            exact hrest

/-- **CONSISTENCY**: it terminates, writes as many bytes as were asked for, and the
    bytes for a smaller size are the first ones of those for a larger one. -/
theorem generate_first (type : BitVec 8) (seed : BitVec 32) {m n : Nat} (h : m ≤ n) :
    ∃ a b, Returns₂ (generate type m seed) a ∧ Returns₂ (generate type n seed) b
      ∧ a.length = m ∧ b.length = n ∧ a <+: b := by
  obtain ⟨o, hlength, ho⟩ :=
    writeChunks_first splitmix64 type n ((seed.setWidth 64 <<< 8) ||| type.signExtend 64)
  have hm := ho m [] h
  have hn := ho n [] (Nat.le_refl n)
  rw [List.nil_append] at hm hn
  rw [List.take_of_length_le (Nat.le_of_eq hlength)] at hn
  refine ⟨o.take m, o, hm, hn, ?_, hlength, List.take_prefix m o⟩
  rw [List.length_take, hlength, Nat.min_eq_left h]

/-- A text of 100 bytes begins with that of 10. -/
theorem generate_first_text :
    ∃ a b, Returns₂ (generate 0x74#8 10 61#32) a ∧ Returns₂ (generate 0x74#8 100 61#32) b
      ∧ a.length = 10 ∧ b.length = 100 ∧ a <+: b :=
  generate_first 0x74#8 61#32 (by decide)

end Generate
