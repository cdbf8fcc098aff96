import ShaderSource.Grammar.Phrase
import ShaderSource.Proofs.Lexing

/-!
# Lexemes with blanks between them

A text that is a single lexeme on its own is cut off as that lexeme before blanks, whatever comes
behind them: no lexeme but a preprocessor line goes on past a blank. So a source that is put
together from such texts with blanks behind each has them as its lexemes.

## Main results

* `Scan.lexeme_blank`: a blank ends every lexeme.
* `Lexemes.ofString_spaced`: the lexemes of tokens that have blanks behind them.
-/

namespace ShaderSource

open List

variable {p : Char → Bool} {c : Char} {kind : LexemeKind} {ts : List (Token × LexemeKind)}

namespace Scan

/-- If there is a first character, it is a blank. -/
def Blank (x : List Char) : Prop :=
  ∀ c ∈ x.head?, isSpace c = true

variable {x : List Char} (hx : Blank x)

theorem of_isSpace (hp : ([' ', '\t', '\n', '\x0b', '\x0c', '\r'].all fun c => !p c) = true)
    (hc : isSpace c = true) : p c = false := by
  have hmem : c ∈ [' ', '\t', '\n', '\x0b', '\x0c', '\r'] := by
    simpa [isSpace, or_assoc] using hc
  simpa using all_eq_true.mp hp c hmem

include hx

theorem Blank.stops (hp : ([' ', '\t', '\n', '\x0b', '\x0c', '\r'].all fun c => !p c) = true) :
    Stops p x :=
  fun c hc => of_isSpace hp (hx c hc)

/-- Other characters than blanks are at the front before blanks as they are without. -/
theorem Blank.head?_eq_iff {d : Char} (hd : isSpace d = false) (s : List Char) :
    (s ++ x).head? = some d ↔ s.head? = some d := by
  refine Stops.head?_append (p := fun c => !isSpace c) (fun c hc => ?_) ?_ s
  · simp [hx c hc]
  · simp [hd]

theorem Blank.mark? (s : List Char) : mark? (s ++ x) = mark? s := by
  have hprefix : ∀ p : List Char, (∀ c ∈ p, isSpace c = false) → ∀ s : List Char,
      p.isPrefixOf (s ++ x) = p.isPrefixOf s := by
    intro p
    induction p with
    | nil => intro _ s; rfl
    | cons c p ih =>
      intro hp s
      rw [forall_mem_cons] at hp
      cases s with
      | cons d s => simp only [cons_append, List.isPrefixOf, ih hp.2 s]
      | nil =>
        cases x with
        | nil => rfl
        | cons d x =>
          have hne : (c == d) = false := by
            rw [beq_eq_false_iff_ne]
            rintro rfl
            rw [hx c rfl] at hp
            cases hp.1
          simp [List.isPrefixOf, hne]
  have hblank : (Vocabulary.punctuation.all fun p => p.toList.all fun c => !isSpace c) = true := by
    decide +kernel
  have hfind : ∀ ps ⊆ Vocabulary.punctuation,
      (ps.find? fun p => p.toList.isPrefixOf (s ++ x)) =
        ps.find? fun p => p.toList.isPrefixOf s := by
    intro ps hps
    induction ps with
    | nil => rfl
    | cons p ps ih =>
      have hp := all_eq_true.mp hblank p (hps mem_cons_self)
      rw [find?_cons, find?_cons, hprefix p.toList (by simpa using hp) s,
        ih fun q hq => hps (mem_cons_of_mem _ hq)]
  rw [Scan.mark?, Scan.mark?, hfind _ (Subset.refl _)]

/-- **A blank ends every lexeme**, preprocessor lines and open comments left aside. -/
theorem lexeme_blank {cs : List Char} (h : lexeme c cs = (kind, (c :: cs).length))
    (hdirective : kind ≠ .directive) (hopen : opensComment (c :: cs) = false) :
    lexeme c (cs ++ x) = (kind, (c :: cs).length) := by
  have hhash : c ≠ '#' := by
    rintro rfl
    exact hdirective (Prod.mk.inj h).1.symm
  have hopen' : opensComment (c :: (cs ++ x)) = false := by
    rw [opensComment_cons, Bool.and_eq_false_iff, beq_eq_false_iff_ne] at hopen ⊢
    rw [beq_eq_false_iff_ne] at hopen ⊢
    exact hopen.imp_right fun hne h => hne ((hx.head?_eq_iff (by decide) cs).mp h)
  have hstarts : startsNumber (c :: (cs ++ x)) = startsNumber (c :: cs) := by
    rw [startsNumber_cons, startsNumber_cons]
    split
    · cases cs with
      | cons d cs => rfl
      | nil =>
        cases x with
        | nil => rfl
        | cons d x => simpa using of_isSpace (p := Char.isDigit) (by decide) (hx d rfl)
    · rfl
  unfold lexeme at h ⊢
  rw [if_neg hhash] at h ⊢
  rw [hstarts, hopen', ← cons_append, hx.mark?]
  rw [hopen] at h
  split at h
  · rw [if_pos ‹_›]
    simp only [run_append_of_stops (hx.stops (p := continuesWord) (by decide)),
      take_append_of_le_length (run_le_length continuesWord (c :: cs))]
    exact h
  · rw [if_neg ‹_›]
    split at h
    · rw [if_pos ‹_›]
      have hnumber := number_exchange (c := c) (t := cs) (x := []) (by rw [append_nil, h])
        (hx.stops (by decide)) fun _ hpoint => absurd (hx _ hpoint) (by decide)
      rwa [append_nil, h] at hnumber
    · rw [if_neg ‹_›]
      exact h

/-- Where no trivia stands, none stands before blanks. -/
theorem Blank.trivia_eq_zero {cs : List Char} (hopen : opensComment (c :: cs) = false)
    (h : trivia (c :: cs) = 0) : trivia (c :: (cs ++ x)) = 0 := by
  by_cases hslash : c = '/'
  · subst hslash
    refine triviaFrom_slash (fun hline => ?_) fun hblock => ?_
    · rw [hx.head?_eq_iff (by decide)] at hline
      obtain ⟨cs, rfl⟩ := head?_eq_some_iff.mp hline
      rw [trivia, triviaFrom] at h
      omega
    · rw [hx.head?_eq_iff (by decide)] at hblock
      simp [opensComment_cons, hblock] at hopen
  · rw [trivia, triviaFrom_of_ne_slash hslash] at h ⊢
    split at h
    · omega
    · rw [if_neg ‹_›]

omit hx

/-- The text is a lexeme of the kind, with nothing before or behind it. -/
def IsLexeme (kind : LexemeKind) (text : String) : Prop :=
  ∃ c cs, text.toList = c :: cs ∧ trivia (c :: cs) = 0 ∧ lexeme c cs = (kind, (c :: cs).length)

/-- The kind of a text that is a single lexeme. -/
def kind? (text : String) : Option LexemeKind :=
  match text.toList with
  | [] => none
  | c :: cs => if (lexeme c cs).2 = cs.length + 1 then some (lexeme c cs).1 else none

/-- No lexeme begins with trivia. -/
theorem isLexeme_of_kind? {text : String} (h : kind? text = some kind) (hvalid : kind ≠ .invalid) :
    IsLexeme kind text := by
  unfold kind? at h
  split at h
  · cases h
  rename_i c cs htext
  split at h
  swap
  · cases h
  rename_i hlength
  have hlexeme : lexeme c cs = (kind, (c :: cs).length) := Prod.ext (Option.some.inj h) hlength
  refine ⟨c, cs, htext, ?_, hlexeme⟩
  have hspace : isSpace c = false := by
    cases hc : isSpace c with
    | false => rfl
    | true =>
      have hblank : Blank (c :: cs) := fun d hd => by
        obtain rfl : c = d := Option.some.inj hd
        exact hc
      have hnone : Scan.mark? (c :: cs) = none := hblank.mark? []
      have hother : (c == '#' || startsWord c || c == '.' || c.isDigit || c == '/') = false :=
        of_isSpace (p := fun c => c == '#' || startsWord c || c == '.' || c.isDigit || c == '/')
          (by decide) hc
      simp only [Bool.or_eq_false_iff, beq_eq_false_iff_ne] at hother
      obtain ⟨⟨⟨⟨hhash, hword⟩, hpoint⟩, hdigit⟩, hslash⟩ := hother
      simp [lexeme, hhash, hword, startsNumber_cons, hpoint, hdigit, opensComment_cons, hslash,
        hnone] at hlexeme
      exact absurd hlexeme.1.symm hvalid
  by_cases hslash : c = '/'
  · subst hslash
    refine triviaFrom_slash (fun hline => ?_) fun hblock => ?_
    · obtain ⟨cs, rfl⟩ := head?_eq_some_iff.mp hline
      have hcut : lexeme '/' ('/' :: cs) = (.punctuation, 1) := rfl
      rw [hcut] at hlexeme
      simp at hlexeme
    · have hopen := not_opensComment hlexeme hvalid
      simp [opensComment_cons, hblock] at hopen
  · rw [trivia, triviaFrom_of_ne_slash hslash, hspace]
    rfl

/-- Blanks are trivia. -/
theorem isTrivia_blanks {g : List Char} (h : ∀ c ∈ g, isSpace c = true) : IsTrivia False g := by
  induction g with
  | nil => exact .nil
  | cons c g ih =>
    rw [forall_mem_cons] at h
    exact .blank (by simpa [isSpace, or_assoc] using h.1) (ih h.2)

end Scan

/-- Blanks stand behind the token. -/
structure Token.Spaced (t : Token) : Prop where
  trivia_ne : t.trivia ≠ ""
  blank : ∀ c ∈ t.trivia.toList, Scan.isSpace c = true

/-- The token is the terminal, and blanks stand behind it. -/
structure Token.Spells (tok : Token) (t : Terminal) : Prop extends tok.Spaced where
  lexeme : ∃ kind, Scan.kind? tok.text = some kind ∧
    t.accepts ⟨kind, tok.text, tok.trivia, Position.start⟩ = true

theorem Token.spells_iff {tok : Token} {t : Terminal} :
    tok.Spells t ↔ (tok.trivia ≠ "" ∧ tok.trivia.toList.all Scan.isSpace = true) ∧
      ((Scan.kind? tok.text).any fun kind =>
        t.accepts ⟨kind, tok.text, tok.trivia, Position.start⟩) = true := by
  rw [Option.any_eq_true, all_eq_true]
  exact ⟨fun h => ⟨⟨h.trivia_ne, h.blank⟩, h.lexeme⟩, fun h => ⟨⟨h.1.1, h.1.2⟩, h.2⟩⟩

instance (tok : Token) (t : Terminal) : Decidable (tok.Spells t) :=
  decidable_of_iff _ Token.spells_iff.symm

/-- The token is a lexeme on its own, and no preprocessor line and no comment. -/
structure Token.Stands (t : Token) (kind : LexemeKind) : Prop where
  lexeme : Scan.IsLexeme kind t.text
  ne_directive : kind ≠ .directive
  closed : Scan.opensComment t.text.toList = false

/-- A lexeme for the token. Its place does not matter. -/
def Token.toLexeme (t : Token) (kind : LexemeKind) : Lexeme :=
  ⟨kind, t.text, t.trivia, Position.start⟩

/-- Each token stands on its own, with blanks behind it. Only the last one may be without. -/
def Token.Line : List (Token × LexemeKind) → Prop
  | [] => True
  | a :: ts => a.1.Stands a.2 ∧ (∀ c ∈ a.1.trivia.toList, Scan.isSpace c = true) ∧
      (ts ≠ [] → a.1.trivia ≠ "") ∧ Token.Line ts

/-- What comes behind a token in a line begins with a blank. -/
theorem Token.Line.blank {a : Token × LexemeKind} (h : Token.Line (a :: ts)) :
    Scan.Blank (a.1.trivia.toList ++ (ts.map fun a => a.1.toLexeme a.2).flatMap Scan.chars) := by
  obtain ⟨-, hblank, hgap, -⟩ := h
  cases htrivia : a.1.trivia.toList with
  | nil =>
    have hts : ts = [] := by
      by_contra hne
      exact hgap hne (String.toList_inj.mp (htrivia.trans rfl))
    subst hts
    intro c hc
    cases hc
  | cons c g =>
    intro d hd
    obtain rfl : c = d := Option.some.inj hd
    exact hblank c (by simp [htrivia])

/-- A source that is put together from tokens with blanks behind them has no trivia in front. -/
theorem Token.Line.trivia_eq_zero (h : Token.Line ts) :
    Scan.trivia ((ts.map fun a => a.1.toLexeme a.2).flatMap Scan.chars) = 0 := by
  cases ts with
  | nil => rfl
  | cons a ts =>
    have hblank := h.blank
    obtain ⟨⟨⟨c, cs, htext, htrivia, -⟩, -, hclosed⟩, -, -, -⟩ := h
    rw [htext] at hclosed
    simpa [Scan.chars, Token.toLexeme, htext] using hblank.trivia_eq_zero hclosed htrivia

theorem Token.Line.standing (h : Token.Line ts) :
    Scan.Standing (ts.map fun a => a.1.toLexeme a.2) := by
  induction ts with
  | nil => trivial
  | cons a ts ih =>
    have hblank := h.blank
    obtain ⟨⟨⟨c, cs, htext, -, hlexeme⟩, hdirective, hclosed⟩, hspace, -, hts⟩ := h
    rw [htext] at hclosed
    refine ⟨⟨c, cs, htext, ?_, ?_⟩, ih hts⟩
    · exact Scan.lexeme_blank hblank hlexeme hdirective hclosed
    · exact ((Scan.isTrivia_blanks hspace).trivia_append _).trans (by rw [hts.trivia_eq_zero]; rfl)

/-- **Tokens with blanks behind them are the lexemes of their text.** -/
theorem Lexemes.ofString_spaced (h : Token.Line ts) {text : String}
    (htext : text = String.join (ts.map fun a => a.1.source)) :
    (ofString text).leading = "" ∧ List.Forall₂ Scan.SameText
      (ts.map fun a => a.1.toLexeme a.2) (ofString text).body.toList := by
  have hchars : text.toList = (ts.map fun a => a.1.toLexeme a.2).flatMap Scan.chars := by
    rw [htext]
    clear htext h
    induction ts with
    | nil => rfl
    | cons a ts ih =>
      rw [map_cons, String.join_cons, String.toList_append, ih, map_cons,
        flatMap_cons]
      simp [Token.source, Scan.chars, Token.toLexeme]
  have htrivia : Scan.trivia text.toList = 0 := by
    rw [hchars]
    exact h.trivia_eq_zero
  refine ⟨by simp [ofString, htrivia], ?_⟩
  have hscan := Scan.scan_eq_of_standing h.standing
    (Position.start.advance (String.ofList (text.toList.take 0)))
  rw [← hchars] at hscan
  simpa [ofString, htrivia] using hscan

end ShaderSource
