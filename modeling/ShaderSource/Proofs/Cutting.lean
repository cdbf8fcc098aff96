import ShaderSource.Proofs.Blanks
import ShaderSource.Proofs.LexemePositions

/-!
# How a source is cut

A source is cut without gaps: its lexemes stand one behind the other, with nothing between them but
trivia, and each cut is made between two characters. A lexeme is not empty, so the cuts move on.

Where a lexeme ends is decided by what it is made of and by the character behind it at most. So the
text of a lexeme, cut on its own, is that lexeme again. The other way round, texts that are lexemes
on their own are the lexemes of what they make up when blanks stand between them.

## Main results

* `Lexemes.ofString_cuts`: how the lexemes of a source lie in it.
* `Scan.lexeme_cut`: a lexeme does not need what comes behind it.
* `Lexemes.ofString_selfDelimiting`: lexemes on their own, and side by side.
-/

namespace ShaderSource

open List Position Scan

variable {c : Char} {cs s x : List Char} {kind : LexemeKind} {text : String}

namespace Scan

theorem Standing.of_append {before after : List Lexeme} (h : Standing (before ++ after)) :
    Standing after := by
  induction before with
  | nil => exact h
  | cons l before ih => exact ih h.2

/-- The characters of lexemes are none only if there are no lexemes. -/
theorem Standing.eq_nil {ls : List Lexeme} (h : Standing ls) (hnil : ls.flatMap chars = []) :
    ls = [] := by
  cases ls with
  | nil => rfl
  | cons l ls =>
    obtain ⟨⟨c, cs, htext, -⟩, -⟩ := h
    simp [chars, htext] at hnil

end Scan

/-! ### How lexemes lie in a source -/

/-- How the lexemes of a source lie in it. -/
structure Lexemes.Cuts (ls : Lexemes) (text : String) : Prop where
  /-- Each lexeme but the end has a text, and its trivia behind it. -/
  order : ∀ i < ls.body.size, (ls.get i).start.offset < (ls.get i).stop.offset ∧
    (ls.get i).stop.offset ≤ (ls.get i).triviaStop.offset
  /-- The next one begins where the trivia ends. -/
  adjacent : ∀ i < ls.body.size, (ls.get i).triviaStop.offset = (ls.get (i + 1)).start.offset
  /-- The first one begins behind the trivia in front. -/
  front : (ls.get 0).start.offset = ls.leading.utf8ByteSize
  ends : ∀ i < ls.body.size, (ls.get i).kind ≠ .endOfInput
  /-- The end is the last one, and empty. -/
  final : (ls.get ls.body.size).kind = .endOfInput ∧
    (ls.get ls.body.size).start.offset = text.utf8ByteSize ∧
    (ls.get ls.body.size).stop.offset = text.utf8ByteSize ∧
    (ls.get ls.body.size).triviaStop.offset = text.utf8ByteSize
  /-- Cuts are made between characters. -/
  boundaries : ∀ i ≤ ls.body.size, String.Pos.Raw.IsValid text ⟨(ls.get i).start.offset⟩ ∧
    String.Pos.Raw.IsValid text ⟨(ls.get i).stop.offset⟩ ∧
    String.Pos.Raw.IsValid text ⟨(ls.get i).triviaStop.offset⟩
  /-- The texts are those between the cuts. -/
  texts : ∀ i ≤ ls.body.size, ∃ before after,
    text = before ++ (ls.get i).text ++ (ls.get i).trivia ++ after ∧
      before.utf8ByteSize = (ls.get i).start.offset
  /-- Nothing but trivia stands in front and in between. -/
  leading : (∃ after, text = ls.leading ++ after) ∧
    IsTrivia (ls.body.size = 0) ls.leading.toList
  trivia : ∀ i < ls.body.size, IsTrivia (i + 1 = ls.body.size) (ls.get i).trivia.toList

namespace Lexemes

theorem triviaStop_get (text : String) (i : Nat) :
    ((ofString text).get i).triviaStop = ((ofString text).get (i + 1)).start := by
  rw [Lexeme.triviaStop, stop_get, ← advance_append, start_get,
    (ofString_tiles text).before_succ, Token.source, String.append_assoc]
  rfl

theorem standing_body (text : String) : Scan.Standing (ofString text).body.toList := by
  simpa [ofString] using scan_standing _ _ _

theorem isTrivia_get {i : Nat} (hi : i < (ofString text).body.size) :
    IsTrivia (i + 1 = (ofString text).body.size) ((ofString text).get i).trivia.toList := by
  have hstanding := standing_body text
  rw [body_eq_append hi] at hstanding
  obtain ⟨⟨c, cs, -, -, htrivia⟩, hafter⟩ := hstanding.of_append
  have htake := isTrivia_take (((ofString text).get i).trivia.toList ++
    ((ofString text).body.toList.drop (i + 1)).flatMap Scan.chars)
  rw [htrivia, take_left, drop_left] at htake
  refine htake.mono fun hnil => ?_
  have hdrop : (ofString text).body.size ≤ i + 1 := by
    simpa using drop_eq_nil_iff.mp (hafter.eq_nil hnil)
  omega

theorem isTrivia_leading (text : String) :
    IsTrivia ((ofString text).body.size = 0) (ofString text).leading.toList := by
  have htake := isTrivia_take text.toList
  have hleading : (ofString text).leading.toList = text.toList.take (Scan.trivia text.toList) := by
    simp [ofString]
  rw [hleading]
  refine htake.mono fun hnil => ?_
  simp [ofString, hnil, scan]

/-- **The lexemes of a source lie one behind the other**, with nothing but trivia before them and
between them, and end with the source. All cuts are made between characters. -/
theorem ofString_cuts (text : String) : (ofString text).Cuts text := by
  have htiles := ofString_tiles text
  have hget : (ofString text).get (ofString text).body.size = (ofString text).final := by
    simp [get]
  have hoffset : (Position.start.advance text).offset = text.utf8ByteSize :=
    Position.offset_advance text
  have hsplit : ∀ i, text = (ofString text).before i ++ ((ofString text).get i).text ++
      ((ofString text).get i).trivia ++ (ofString text).rest (i + 1) := by
    intro i
    have hwhole := (htiles.before_append_rest i).symm
    rw [htiles.rest_eq i, Token.source, String.append_assoc] at hwhole
    rwa [String.append_assoc, String.append_assoc]
  have hvalid : ∀ before after, text = before ++ after →
      String.Pos.Raw.IsValid text ⟨(Position.start.advance before).offset⟩ := by
    rintro before after rfl
    rw [Position.offset_advance]
    exact String.Pos.Raw.isValid_iff_exists_append.mpr ⟨before, after, rfl, rfl⟩
  refine {
    order := fun i hi => ⟨start_lt_stop hi, ?_⟩
    adjacent := fun i _ => by rw [triviaStop_get]
    front := ?_
    ends := fun i hi hend => ?_
    final := by rw [hget]; exact ⟨rfl, hoffset, hoffset, hoffset⟩
    boundaries := fun i _ => ⟨?_, ?_, ?_⟩
    texts := fun i _ => ⟨_, _, hsplit i, (offset_start text i).symm⟩
    leading := ⟨⟨_, htiles.whole.symm⟩, isTrivia_leading text⟩
    trivia := fun i hi => isTrivia_get hi }
  · rw [triviaStop_get]
    exact stop_le_start text i
  · rw [offset_start]
    simp [before]
  · have hmem : (ofString text).get i ∈ (ofString text).body := by simp [get, hi]
    have hbody := htiles.body_not_end _ hmem
    rw [Lexeme.isEnd, hend] at hbody
    cases hbody
  · rw [start_get]
    exact hvalid _ _ (htiles.before_append_rest i).symm
  · rw [stop_get]
    exact hvalid _ _ ((hsplit i).trans (String.append_assoc ..))
  · rw [triviaStop_get, start_get]
    exact hvalid _ _ (htiles.before_append_rest (i + 1)).symm

end Lexemes

/-! ### Lexemes on their own -/

namespace Scan

theorem directive_cut {b : Bool} (h : directive b (s ++ x) ≤ s.length) :
    directive b s = directive b (s ++ x) := by
  induction s generalizing b with
  | nil => exact (Nat.le_zero.mp h).symm
  | cons c s ih =>
    have hstep : ∀ b, 1 + directive b (s ++ x) ≤ s.length + 1 →
        1 + directive b s = 1 + directive b (s ++ x) := fun b h => by rw [ih (b := b) (by omega)]
    rw [cons_append, directive, length_cons] at h
    rw [cons_append, directive, directive]
    by_cases hfeed : c = '\n'
    · simp only [if_pos hfeed] at h ⊢
      cases b with
      | false => rfl
      | true => exact hstep false h
    · simp only [if_neg hfeed] at h ⊢
      by_cases hreturn : c = '\r'
      · simp only [if_pos hreturn] at h ⊢
        exact hstep b h
      · simp only [if_neg hreturn] at h ⊢
        exact hstep _ h

/-- A point begins a number with the digit behind it only. -/
theorem startsNumber_cut (h : startsNumber (c :: (cs ++ x)) = true →
    (number (c :: (cs ++ x))).2 ≤ (c :: cs).length) :
    startsNumber (c :: cs) = startsNumber (c :: (cs ++ x)) := by
  cases cs with
  | cons d cs => rw [cons_append, startsNumber_cons, startsNumber_cons]; rfl
  | nil =>
    rw [nil_append] at h ⊢
    cases x with
    | nil => rfl
    | cons d x =>
      by_cases hc : c = '.'
      swap
      · rw [startsNumber_cons, startsNumber_cons, if_neg hc, if_neg hc]
      subst hc
      cases hd : d.isDigit with
      | false => simp [startsNumber_cons, hd]
      | true =>
        have hle := Nat.le_trans (point_le_decimal ('.' :: d :: x))
          (h (by simp [startsNumber_cons, hd]))
        have hwhole : run Char.isDigit ('.' :: d :: x) = 0 := rfl
        rw [hwhole, drop_zero, fraction, run_cons_of_pos hd, length_singleton] at hle
        omega

theorem opensComment_cut (h : opensComment (c :: (cs ++ x)) = false) :
    opensComment (c :: cs) = false := by
  rw [opensComment_cons] at h ⊢
  cases cs with
  | cons d cs => exact h
  | nil => simp

theorem mark?_cut (h : ∀ n ∈ mark? (s ++ x), n ≤ s.length) : mark? s = mark? (s ++ x) := by
  have hfind : ∀ ps : List String,
      (∀ p ∈ ps.find? fun p => p.toList.isPrefixOf (s ++ x), p.length ≤ s.length) →
      (ps.find? fun p => p.toList.isPrefixOf s) =
        ps.find? fun p => p.toList.isPrefixOf (s ++ x) := by
    intro ps hps
    induction ps with
    | nil => rfl
    | cons p ps ih =>
      have hprefix : p.toList.isPrefixOf (s ++ x) = p.toList.isPrefixOf s := by
        rw [Bool.eq_iff_iff, isPrefixOf_iff_prefix, isPrefixOf_iff_prefix]
        refine ⟨fun hp => ?_, fun hp => hp.trans (prefix_append s x)⟩
        have hle : p.toList.length ≤ s.length := by
          rw [String.length_toList]
          refine hps p ?_
          rw [find?_cons, isPrefixOf_iff_prefix.mpr hp]
          rfl
        exact prefix_of_prefix_length_le hp (prefix_append s x) hle
      rw [find?_cons, find?_cons, hprefix]
      split
      · rfl
      · rename_i hnot
        refine ih fun q hq => hps q ?_
        rwa [find?_cons, hprefix, hnot]
  rw [mark?] at h
  rw [mark?, mark?, hfind _ fun p hp => h _ (Option.mem_map_of_mem _ hp)]

/-- **A lexeme does not need what comes behind it.** -/
theorem lexeme_cut (h : lexeme c (cs ++ x) = (kind, (c :: cs).length)) :
    lexeme c cs = (kind, (c :: cs).length) := by
  rw [← h]
  have hlength : (lexeme c (cs ++ x)).2 = (c :: cs).length := congrArg Prod.snd h
  unfold lexeme at hlength ⊢
  by_cases hhash : c = '#'
  · simp only [if_pos hhash] at hlength ⊢
    rw [directive_cut (s := c :: cs) (Nat.le_of_eq hlength)]
    rfl
  simp only [if_neg hhash] at hlength ⊢
  by_cases hword : startsWord c = true
  · simp only [if_pos hword] at hlength ⊢
    rw [← cons_append] at hlength ⊢
    have hrun := run_exchange (Nat.le_of_eq hlength) (Stops.nil continuesWord)
    rw [append_nil] at hrun
    rw [hrun, take_append_of_le_length (Nat.le_of_eq hlength)]
  simp only [if_neg hword] at hlength ⊢
  have hnumber : startsNumber (c :: cs) = startsNumber (c :: (cs ++ x)) :=
    startsNumber_cut fun hnumber => by simpa only [if_pos hnumber] using Nat.le_of_eq hlength
  rw [hnumber]
  split
  · rename_i hnumber
    rw [if_pos hnumber] at hlength
    simpa using number_exchange hlength (Stops.nil Char.isAlphanum) (by simp)
  rename_i hnumber
  rw [if_neg hnumber] at hlength
  cases hopen : opensComment (c :: (cs ++ x)) with
  | true =>
    -- The comment goes on to the end, so nothing comes behind it.
    have hx : x = [] := by
      simp only [hopen, if_true, length_cons, length_append] at hlength
      exact eq_nil_of_length_eq_zero (by omega)
    rw [hx, append_nil] at hopen ⊢
    rw [hopen]
  | false =>
    simp only [hopen, opensComment_cut hopen, Bool.false_eq_true, if_false] at hlength ⊢
    have hmark : mark? (c :: cs) = mark? (c :: cs ++ x) := by
      refine mark?_cut fun n hn => ?_
      rw [cons_append] at hn
      simpa only [Option.mem_def.mp hn] using Nat.le_of_eq hlength
    rw [hmark]
    rfl

theorem trivia_cut (h : trivia (c :: (cs ++ x)) = 0) : trivia (c :: cs) = 0 := by
  by_cases hslash : c = '/'
  swap
  · rw [trivia, triviaFrom_of_ne_slash hslash] at h ⊢
    split at h
    · omega
    · rw [if_neg ‹_›]
  subst hslash
  cases cs with
  | nil => rfl
  | cons d cs =>
    by_cases hline : d = '/'
    · subst hline
      rw [cons_append, trivia, triviaFrom] at h
      omega
    by_cases hblock : d = '*'
    · subst hblock
      rw [cons_append, trivia, triviaFrom] at h
      split at h
      · omega
      · rename_i hopen
        rw [trivia, triviaFrom, if_neg fun hcloses => hopen (closesComment_append hcloses x)]
    · exact triviaFrom_slash (by simpa using hline) (by simpa using hblock)

/-- Lexemes that stand before each other are lexemes on their own. -/
theorem Standing.isLexeme {ls : List Lexeme} (h : Standing ls)
    (htrivia : trivia (ls.flatMap chars) = 0) : ∀ l ∈ ls, IsLexeme l.kind l.text := by
  induction ls with
  | nil => simp
  | cons l ls ih =>
    obtain ⟨⟨c, cs, htext, hlexeme, hgap⟩, hls⟩ := h
    have hrest : trivia (ls.flatMap chars) = 0 := by
      have hdrop := trivia_drop .between (l.trivia.toList ++ ls.flatMap chars)
      rwa [← trivia, hgap, drop_left] at hdrop
    rw [forall_mem_cons]
    refine ⟨⟨c, cs, htext, ?_, lexeme_cut hlexeme⟩, ih hls hrest⟩
    refine trivia_cut (x := l.trivia.toList ++ ls.flatMap chars) ?_
    simpa [chars, htext] using htrivia

end Scan

namespace Lexemes

/-- The text, cut on its own, is one lexeme of the kind that holds all of it, and then the end. -/
def Alone (kind : LexemeKind) (text : String) : Prop :=
  (ofString text).leading = "" ∧ (ofString text).toList =
    [⟨kind, text, "", start⟩, ⟨.endOfInput, "", "", start.advance text⟩]

instance (kind : LexemeKind) (text : String) : Decidable (Alone kind text) :=
  inferInstanceAs (Decidable (_ ∧ _))

/-- A text is a lexeme if cutting it yields it alone. -/
theorem alone_iff : Alone kind text ↔ Scan.IsLexeme kind text := by
  constructor
  · rintro ⟨hleading, hlist⟩
    cases htext : text.toList with
    | nil => simp [toList, ofString, htext, scan] at hlist
    | cons c cs =>
      have htrivia : Scan.trivia (c :: cs) = 0 := by
        have htake := congrArg String.toList hleading
        simpa [ofString, htext] using htake
      obtain ⟨k, n, hcut⟩ : ∃ k n, Scan.lexeme c cs = (k, n) := ⟨_, _, rfl⟩
      simp only [toList, ofString, htext, htrivia, drop_zero, scan, hcut] at hlist
      obtain ⟨hhead, -⟩ := cons.inj hlist
      obtain ⟨rfl, hwhole, -, -⟩ := Lexeme.mk.inj hhead
      have htake : (c :: cs).take n = c :: cs := by
        rw [← String.toList_ofList (l := (c :: cs).take n), hwhole, htext]
      have hlength := congrArg List.length htake
      rw [length_take] at hlength
      have hle := lexeme_le_length c cs
      rw [hcut] at hle
      obtain rfl : n = (c :: cs).length := by
        simp only [length_cons] at hlength hle ⊢
        omega
      exact ⟨c, cs, htext, htrivia, hcut⟩
  · rintro ⟨c, cs, htext, htrivia, hlexeme⟩
    have hscan : scan start 0 (c :: cs) = [⟨kind, text, "", start⟩] := by
      simp only [scan, hlexeme, take_length, drop_length]
      rw [scan_settled, drop_eq_nil_of_le (by simp), ← htext, String.ofList_toList]
      rfl
    refine ⟨by simp [ofString, htext, htrivia], ?_⟩
    have hstart : start.advance "" = start := rfl
    simp [toList, ofString, htext, htrivia, hstart, hscan]

end Lexemes

theorem Token.line_of_alone {ts : List (Token × LexemeKind)}
    (halone : ∀ a ∈ ts, Lexemes.Alone a.2 a.1.text ∧ a.2 ≠ .directive ∧
      ¬['/', '*'] <+: a.1.text.toList)
    (hblank : ∀ a ∈ ts, ∀ c ∈ a.1.trivia.toList, isSpace c = true)
    (hgap : ∀ a ∈ ts.dropLast, a.1.trivia ≠ "") : Token.Line ts := by
  induction ts with
  | nil => trivial
  | cons a ts ih =>
    rw [forall_mem_cons] at halone hblank
    obtain ⟨⟨hlexeme, hdirective, hopen⟩, hts⟩ := halone
    have hclosed : Scan.opensComment a.1.text.toList = false := by
      unfold Scan.opensComment
      split
      · rename_i cs htext
        exact absurd ⟨cs, htext.symm⟩ hopen
      · rfl
    refine ⟨⟨Lexemes.alone_iff.mp hlexeme, hdirective, hclosed⟩, hblank.1, ?_, ?_⟩
    · intro hne
      rw [dropLast_cons_of_ne_nil hne] at hgap
      exact hgap a mem_cons_self
    · refine ih hts hblank.2 fun b hb => hgap b ?_
      have hne : ts ≠ [] := by
        rintro rfl
        cases hb
      rw [dropLast_cons_of_ne_nil hne]
      exact mem_cons_of_mem a hb

namespace Lexemes

/-- **Lexemes are made of their own text.** Cut on its own, the text of each lexeme of a source is
that lexeme again. Texts that are lexemes on their own, other than preprocessor lines and comments
that are not closed, are cut apart again by the blanks between them. -/
theorem ofString_selfDelimiting :
    (∀ text : String, ∀ l ∈ (ofString text).body, Alone l.kind l.text) ∧
    ∀ ts : List (Token × LexemeKind),
      (∀ a ∈ ts, Alone a.2 a.1.text ∧ a.2 ≠ .directive ∧ ¬['/', '*'] <+: a.1.text.toList) →
      (∀ a ∈ ts, ∀ c ∈ a.1.trivia.toList, Scan.isSpace c = true) →
      (∀ a ∈ ts.dropLast, a.1.trivia ≠ "") →
      (ofString (String.join (ts.map fun a => a.1.source))).leading = "" ∧
        (ofString (String.join (ts.map fun a => a.1.source))).body.toList.map
          (fun l => (l.token, l.kind)) = ts := by
  refine ⟨fun text l hl => ?_, fun ts halone hblank hgap => ?_⟩
  · have hchars : (ofString text).body.toList.flatMap Scan.chars =
        text.toList.drop (Scan.trivia text.toList) := by
      simpa [ofString] using Scan.scan_chars _ 0 (text.toList.drop (Scan.trivia text.toList))
    refine alone_iff.mpr ((standing_body text).isLexeme ?_ l (Array.mem_toList_iff.mpr hl))
    rw [hchars]
    exact Scan.trivia_drop .between text.toList
  · obtain ⟨hleading, hsame⟩ := ofString_spaced (Token.line_of_alone halone hblank hgap) rfl
    refine ⟨hleading, ?_⟩
    have hkinds : ∀ {ls ms : List Lexeme}, List.Forall₂ Scan.SameText ls ms →
        ms.map (fun l => (l.token, l.kind)) = ls.map fun l => (l.token, l.kind) := by
      intro ls ms h
      induction h with
      | nil => rfl
      | cons hl _ ih => rw [map_cons, map_cons, hl.1, hl.2, ih]
    rw [hkinds hsame, map_map]
    exact map_id ts

/-- A number that ends with a point, a mark of two characters, and a character that is no lexeme of
the language, with different blanks between them and none at the end. -/
theorem ofString_selfDelimiting_blanks :
    Alone .floatConstant "1." ∧ Alone .punctuation "+=" ∧ Alone .invalid "@" ∧
      (ofString "1.\t+= \n@").leading = "" ∧
      (ofString "1.\t+= \n@").body.toList.map (fun l => (l.token, l.kind)) =
        [(⟨"1.", "\t"⟩, .floatConstant), (⟨"+=", " \n"⟩, .punctuation), (⟨"@", ""⟩, .invalid)] := by
  have hblank : ∀ a ∈ [(⟨"1.", "\t"⟩, .floatConstant), (⟨"+=", " \n"⟩, .punctuation),
      (⟨"@", ""⟩, LexemeKind.invalid)], (Token.trivia a.1).toList.all Scan.isSpace = true := by
    decide +kernel
  have hcut := ofString_selfDelimiting.2 _ (by decide +kernel)
    (fun a ha => all_eq_true.mp (hblank a ha)) (by decide +kernel)
  exact ⟨by decide +kernel, by decide +kernel, by decide +kernel, hcut⟩

end Lexemes

end ShaderSource
