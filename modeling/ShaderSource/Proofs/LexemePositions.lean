import ShaderSource.Proofs.Tiling

/-!
# Where lexemes stand

The place of a lexeme is the one that the text before it leads to. A place tells three things about
the text before it: how many bytes it has, how many line feeds, and how many characters behind the
last of them. Since no lexeme is empty, each begins further on than those before it.

## Main results

* `Position.advance_isIn`: what a place tells about the text before it.
* `Lexemes.start_get`: a lexeme begins where the text before it ends.
* `Lexemes.start_lt`, `Lexemes.eq_of_span`: lexemes begin one after the other, so two of them have
  different ranges.
-/

namespace ShaderSource

open List

/-! ### Places and the text before them -/

namespace Position

/-- A place in a text: so many bytes come before it, it stands on the line behind so many line
feeds, and in the column behind so many characters since the last one. -/
def IsIn (p : Position) (text : String) : Prop :=
  ∃ before after, text = before ++ after ∧ p.offset = before.utf8ByteSize ∧
    p.line = 1 + before.toList.count '\n' ∧
    p.column = 1 + (before.toList.reverse.takeWhile (· != '\n')).length

theorem after_append (p : Position) (cs ds : List Char) :
    p.after (cs ++ ds) = (p.after cs).after ds :=
  foldl_append

theorem advance_append (p : Position) (s t : String) :
    p.advance (s ++ t) = (p.advance s).advance t := by
  rw [advance, String.toList_append, after_append]
  rfl

-- the last character comes first, for it is the one that decides
theorem after_reverse (cs : List Char) :
    start.after cs.reverse = ⟨(String.ofList cs.reverse).utf8ByteSize, 1 + cs.count '\n',
      1 + (cs.takeWhile (· != '\n')).length⟩ := by
  induction cs with
  | nil => rfl
  | cons c cs ih =>
    rw [reverse_cons, after_append, ih]
    have hsize : (String.ofList (cs.reverse ++ [c])).utf8ByteSize =
        (String.ofList cs.reverse).utf8ByteSize + c.utf8Size := by simp
    rw [hsize]
    by_cases hc : c = '\n'
    · subst hc
      simp [after, next, Nat.add_assoc]
    · simp [after, next, hc, Nat.add_comm]

theorem advance_eq (before : String) :
    start.advance before = ⟨before.utf8ByteSize, 1 + before.toList.count '\n',
      1 + (before.toList.reverse.takeWhile (· != '\n')).length⟩ := by
  have h := after_reverse before.toList.reverse
  rwa [reverse_reverse, String.ofList_toList, count_reverse] at h

theorem offset_advance (before : String) :
    (start.advance before).offset = before.utf8ByteSize := by
  rw [advance_eq]

/-- **What a place tells about the text before it.** -/
theorem advance_isIn (before after : String) :
    (start.advance before).IsIn (before ++ after) := by
  rw [advance_eq]
  exact ⟨before, after, rfl, rfl, rfl, rfl⟩

end Position

/-! ### The places of lexemes -/

namespace Scan

/-- A lexeme stands where the lexemes before it lead to. -/
theorem scan_start {place : Position} {settled : Nat} {cs : List Char} {before after : List Lexeme}
    {l : Lexeme} (h : scan place settled cs = before ++ l :: after) :
    l.start = place.after (before.flatMap chars) := by
  induction cs generalizing place settled before with
  | nil => simp [scan] at h
  | cons c cs ih =>
    cases settled with
    | succ settled => exact ih h
    | zero =>
      rw [scan] at h
      cases before with
      | nil =>
        obtain ⟨rfl, -⟩ := cons.inj h
        rfl
      | cons m before =>
        obtain ⟨rfl, hrest⟩ := cons.inj h
        rw [ih hrest, flatMap_cons, Position.after_append, chars, Position.after_append]
        rfl

theorem scan_text_ne {place : Position} {settled : Nat} {cs : List Char} {l : Lexeme}
    (h : l ∈ scan place settled cs) : l.text ≠ "" := by
  induction cs generalizing place settled with
  | nil => simp [scan] at h
  | cons c cs ih =>
    cases settled with
    | succ settled => exact ih h
    | zero =>
      obtain ⟨kind, n, hcut⟩ : ∃ kind n, lexeme c cs = (kind, n + 1) :=
        ⟨_, _, Prod.ext rfl (Nat.sub_add_cancel (lexeme_length_pos c cs)).symm⟩
      simp only [scan, hcut] at h
      rcases mem_cons.mp h with rfl | h
      · intro hempty
        have hlist := congrArg String.toList hempty
        rw [String.toList_ofList] at hlist
        cases hlist
      · exact ih h

end Scan

namespace Lexemes

/-- The text before the lexeme at an index. -/
def before (ls : Lexemes) (i : Nat) : String :=
  ls.leading ++ String.join ((ls.body.toList.take i).map fun l => l.token.source)

variable {text : String}

theorem Tiles.before_append_rest {ls : Lexemes} (h : ls.Tiles text) (i : Nat) :
    ls.before i ++ ls.rest i = text := by
  rw [← h.whole, before, rest, rest, String.append_assoc, ← String.join_append, ← map_append,
    take_append_drop, drop_zero]

theorem Tiles.before_succ {ls : Lexemes} (h : ls.Tiles text) (i : Nat) :
    ls.before (i + 1) = ls.before i ++ (ls.get i).token.source := by
  have hwhole := (h.before_append_rest i).trans (h.before_append_rest (i + 1)).symm
  rw [h.rest_eq i, ← String.append_assoc] at hwhole
  exact ((String.append_left_inj _).mp hwhole).symm

theorem body_eq_append {i : Nat} (hi : i < (ofString text).body.size) :
    (ofString text).body.toList = (ofString text).body.toList.take i ++
      (ofString text).get i :: (ofString text).body.toList.drop (i + 1) := by
  have hget : (ofString text).get i = (ofString text).body[i] := by simp [get, hi]
  rw [hget, ← Array.getElem_toList, getElem_cons_drop, take_append_drop]

/-- **A lexeme begins where the text before it ends.** -/
theorem start_get (text : String) (i : Nat) :
    ((ofString text).get i).start = Position.start.advance ((ofString text).before i) := by
  have hchars : ∀ ls : List Lexeme,
      (String.join (ls.map fun l => l.token.source)).toList = ls.flatMap Scan.chars := by
    intro ls
    rw [String.toList_join, flatMap_map]
    exact congrArg (ls.flatMap ·) (funext fun l => String.toList_append)
  by_cases hi : i < (ofString text).body.size
  · have hbody : (ofString text).body.toList =
        Scan.scan (Position.start.advance (ofString text).leading) 0
          (text.toList.drop (Scan.trivia text.toList)) := by
      simp [ofString]
    rw [Scan.scan_start (hbody.symm.trans (body_eq_append hi)), before, Position.advance_append]
    exact congrArg _ (hchars _).symm
  · have hrest : (ofString text).rest i = "" := by
      rw [rest, drop_eq_nil_of_le (by simpa using hi)]
      rfl
    have hwhole := (ofString_tiles text).before_append_rest i
    rw [hrest, String.append_empty] at hwhole
    have hget : (ofString text).get i = (ofString text).final := by simp [get, hi]
    rw [hwhole, hget]
    rfl

/-- It ends behind its own text. -/
theorem stop_get (text : String) (i : Nat) :
    ((ofString text).get i).stop =
      Position.start.advance ((ofString text).before i ++ ((ofString text).get i).text) := by
  rw [Lexeme.stop, start_get, Position.advance_append]

theorem offset_start (text : String) (i : Nat) :
    ((ofString text).get i).start.offset = ((ofString text).before i).utf8ByteSize := by
  rw [start_get, Position.offset_advance]

/-- No lexeme is empty. -/
theorem text_ne {i : Nat} (hi : i < (ofString text).body.size) :
    ((ofString text).get i).text ≠ "" := by
  have hmem : (ofString text).get i ∈ (ofString text).body := by simp [get, hi]
  have hscan : (ofString text).get i ∈ Scan.scan (Position.start.advance (ofString text).leading) 0
      (text.toList.drop (Scan.trivia text.toList)) := by
    simpa [ofString] using hmem
  exact Scan.scan_text_ne hscan

theorem offset_stop (text : String) (i : Nat) :
    ((ofString text).get i).stop.offset =
      ((ofString text).before i).utf8ByteSize + ((ofString text).get i).text.utf8ByteSize := by
  rw [stop_get, Position.offset_advance, String.utf8ByteSize_append]

/-- Each lexeme of a source ends behind its beginning. -/
theorem start_lt_stop {i : Nat} (hi : i < (ofString text).body.size) :
    ((ofString text).get i).start.offset < ((ofString text).get i).stop.offset := by
  have hpos : ((ofString text).get i).text.utf8ByteSize ≠ 0 :=
    fun hzero => text_ne hi (String.utf8ByteSize_eq_zero_iff.mp hzero)
  rw [offset_start, offset_stop]
  omega

/-- Each lexeme of a source ends before the next one. -/
theorem stop_le_start (text : String) (i : Nat) :
    ((ofString text).get i).stop.offset ≤ ((ofString text).get (i + 1)).start.offset := by
  rw [offset_start, offset_stop, (ofString_tiles text).before_succ, String.utf8ByteSize_append,
    Token.source, String.utf8ByteSize_append]
  exact Nat.add_le_add_left (Nat.le_add_right _ _) _

/-- Each lexeme of a source begins before those behind it and before the end. -/
theorem start_lt {i j : Nat} (hij : i < j) (hj : j ≤ (ofString text).body.size) :
    ((ofString text).get i).start.offset < ((ofString text).get j).start.offset := by
  induction hij with
  | refl => exact Nat.lt_of_lt_of_le (start_lt_stop hj) (stop_le_start text i)
  | step _ ih =>
    have hnext := Nat.lt_of_lt_of_le (start_lt_stop hj) (stop_le_start text _)
    exact Nat.lt_trans (ih (Nat.le_of_succ_le hj)) hnext

/-- Two lexemes of a source, its end included, have different ranges. -/
theorem eq_of_span {i j : Nat} (hi : i ≤ (ofString text).body.size)
    (hj : j ≤ (ofString text).body.size)
    (h : ((ofString text).get i).span = ((ofString text).get j).span) : i = j := by
  have hstart : ((ofString text).get i).start.offset = ((ofString text).get j).start.offset :=
    congrArg (fun s : Span => s.start.offset) h
  rcases Nat.lt_trichotomy i j with hlt | heq | hgt
  · exact absurd hstart (Nat.ne_of_lt (start_lt hlt hj))
  · exact heq
  · exact absurd hstart (Nat.ne_of_gt (start_lt hgt hi))

end Lexemes

end ShaderSource
