import ShaderSource.Token.Scan

/-!
# Lexemes tile their source

Writing out the leading trivia of a source and then all its lexemes, each with its trivia, gives
the source back. The scan settles a number of characters with every lexeme and passes over them;
it loses none because no lexeme is empty, so that each step settles at least the character at
which it stands.

What is left of a source at an index is `Lexemes.rest`. Reading moves forward through it: the
lexeme at an index stands at the front of what is left there.

## Main results

* `Scan.lexeme_length_pos`: no lexeme is empty.
* `Scan.scan_chars`: the scanned lexemes hold the characters that are not settled.
* `Lexemes.ofString_tiles`: the lexemes of a source tile it.
-/

namespace ShaderSource

open List

namespace Scan

/-! ### No lexeme is empty -/

theorem run_cons_of_pos {p : Char → Bool} {c : Char} (h : p c = true) (cs : List Char) :
    run p (c :: cs) = run p cs + 1 := by
  simp [run, h]

theorem continuesWord_of_startsWord {c : Char} (h : startsWord c = true) :
    continuesWord c = true := by
  simp only [startsWord, continuesWord, Char.isAlphanum, Bool.or_eq_true] at h ⊢
  rcases h with h | h
  · exact .inl h
  · exact .inr (.inl h)

/-- A suffix of a number makes it no shorter. -/
theorem length_le_suffixed (length : Nat) (isFloat : Bool) (cs : List Char) :
    length ≤ (suffixed length isFloat cs).2 := by
  unfold suffixed
  split <;> (try split) <;> (try split) <;> simp

/-- A number that starts with a digit or with a point before one is not empty. -/
theorem decimal_length_pos {cs : List Char} (h : startsNumber cs = true) :
    0 < (decimal cs).2 := by
  have key : 0 < run Char.isDigit cs + fraction (cs.drop (run Char.isDigit cs)) := by
    unfold startsNumber at h
    split at h
    · rename_i d cs'
      have hpoint : ('.' : Char).isDigit = false := by decide
      simp only [run, takeWhile_cons, hpoint, Bool.false_eq_true, if_false, length_nil,
        drop_zero, fraction]
      omega
    · rw [run_cons_of_pos h]
      omega
    · cases h
  have hle := length_le_suffixed
    (run Char.isDigit cs + fraction (cs.drop (run Char.isDigit cs)) +
      exponent (cs.drop (run Char.isDigit cs + fraction (cs.drop (run Char.isDigit cs)))))
  simp only [decimal]
  exact Nat.lt_of_lt_of_le (by omega) (hle _ _)

theorem number_length_pos {cs : List Char} (h : startsNumber cs = true) : 0 < (number cs).2 := by
  unfold number
  split
  · simp only; omega
  · simp only; omega
  · exact decimal_length_pos h

theorem punctuation_length_pos {p : String} (h : p ∈ Vocabulary.punctuation) : 0 < p.length := by
  revert p
  decide

/-- No lexeme is empty. -/
theorem lexeme_length_pos (c : Char) (cs : List Char) : 0 < (lexeme c cs).2 := by
  unfold lexeme
  split
  · rename_i hc
    subst hc
    simp only [directive, Char.reduceEq, if_false]
    omega
  · split
    · rename_i hword
      simp only [run_cons_of_pos (continuesWord_of_startsWord hword)]
      omega
    · split
      · rename_i hnumber
        exact number_length_pos hnumber
      · split
        · simp
        · unfold mark?
          cases hmark : Vocabulary.punctuation.find? fun p => p.toList.isPrefixOf (c :: cs) with
          | none => simp
          | some p => simpa using punctuation_length_pos (mem_of_find?_eq_some hmark)

/-! ### The scan loses no character -/

/-- The characters of a lexeme, trivia included. -/
def chars (l : Lexeme) : List Char :=
  l.text.toList ++ l.trivia.toList

/-- The lexemes of a scan hold the characters that are not settled, in their order. -/
theorem scan_chars (place : Position) (settled : Nat) (cs : List Char) :
    (scan place settled cs).flatMap chars = cs.drop settled := by
  induction cs generalizing place settled with
  | nil => simp [scan]
  | cons c cs ih =>
    cases settled with
    | succ settled => rw [scan, ih, drop_succ_cons]
    | zero =>
      have hpos := lexeme_length_pos c cs
      generalize hn : (lexeme c cs).2 = n at hpos
      simp only [scan, hn, flatMap_cons, ih, chars, String.toList_ofList, drop_zero]
      generalize ht : trivia ((c :: cs).drop n) = t
      have hdrop : cs.drop (n + t - 1) = ((c :: cs).drop n).drop t := by
        rw [drop_drop, show n + t = (n + t - 1) + 1 by omega, drop_succ_cons,
          Nat.add_sub_cancel]
      rw [hdrop, append_assoc, take_append_drop, take_append_drop]

theorem wordKind_ne_end (word : String) : wordKind word ≠ .endOfInput := by
  unfold wordKind
  split
  · simp
  · split <;> simp

theorem suffixed_ne_end (length : Nat) (isFloat : Bool) (cs : List Char) :
    (suffixed length isFloat cs).1 ≠ .endOfInput := by
  unfold suffixed
  split <;> (try split) <;> (try split) <;> simp

/-- No lexeme in the text is the end of it. -/
theorem lexeme_ne_end (c : Char) (cs : List Char) : (lexeme c cs).1 ≠ .endOfInput := by
  unfold lexeme
  split
  · simp
  · split
    · exact wordKind_ne_end _
    · split
      · unfold number
        split
        · simp
        · simp
        · exact suffixed_ne_end _ _ _
      · split
        · simp
        · split <;> simp

theorem scan_not_end (place : Position) (settled : Nat) (cs : List Char) :
    ∀ l ∈ scan place settled cs, l.isEnd = false := by
  induction cs generalizing place settled with
  | nil => simp [scan]
  | cons c cs ih =>
    cases settled with
    | succ settled => exact ih place settled
    | zero =>
      intro l hl
      simp only [scan, mem_cons] at hl
      rcases hl with rfl | hl
      · simpa [Lexeme.isEnd] using lexeme_ne_end c cs
      · exact ih _ _ l hl

end Scan

namespace Lexemes

/-! ### What is left of a source -/

/-- What is left of the source at an index: the lexemes from there on, written out. -/
def rest (ls : Lexemes) (i : Nat) : String :=
  String.join ((ls.body.toList.drop i).map fun l => l.token.source)

/-- The lexemes hold every character of a text, and only the last one is its end. -/
structure Tiles (ls : Lexemes) (text : String) : Prop where
  whole : ls.leading ++ ls.rest 0 = text
  final_blank : ls.final.token.source = ""
  body_not_end : ∀ l ∈ ls.body, l.isEnd = false

/-- The lexeme at an index stands at the front of what is left there. -/
theorem Tiles.rest_eq {ls : Lexemes} {text : String} (h : ls.Tiles text) (i : Nat) :
    ls.rest i = (ls.get i).token.source ++ ls.rest (i + 1) := by
  by_cases hi : i < ls.body.size
  · have hdrop := drop_eq_getElem_cons (l := ls.body.toList) (i := i) (by simpa using hi)
    simp [rest, get, hdrop, hi, String.join_cons]
  · have hdrop : ∀ k, i ≤ k → ls.rest k = "" := by
      intro k hk
      rw [rest, drop_eq_nil_of_le (by simp; omega)]
      rfl
    rw [hdrop i (Nat.le_refl i), hdrop (i + 1) (by omega)]
    simp [get, hi, h.final_blank]

/-- The lexemes of a source tile it. -/
theorem ofString_tiles (text : String) : (ofString text).Tiles text where
  whole := by
    have hchars := Scan.scan_chars
      (Position.start.advance (String.ofList (text.toList.take (Scan.trivia text.toList)))) 0
      (text.toList.drop (Scan.trivia text.toList))
    rw [drop_zero] at hchars
    apply String.toList_injective
    rw [← take_append_drop (Scan.trivia text.toList) text.toList, ← hchars]
    simp only [ofString, rest, String.toList_append, String.toList_ofList, String.toList_join,
      drop_zero, flatMap_map, Lexeme.token, Token.source]
    rfl
  final_blank := by simp [ofString, Lexeme.token, Token.source]
  body_not_end := by
    intro l hl
    exact Scan.scan_not_end _ _ _ l (by simpa [ofString] using hl)

end Lexemes

end ShaderSource
