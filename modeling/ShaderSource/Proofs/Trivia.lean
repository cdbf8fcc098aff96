import ShaderSource.Token.Scan

/-!
# Trivia

Between lexemes stand blanks and comments. What is passed over before a lexeme is made of these
only, it is all there is of them, and what comes behind does not matter for where they end.

## Main results

* `Scan.isTrivia_take`, `Scan.trivia_drop`: what is passed over is trivia, and all of it.
* `Scan.IsTrivia.trivia_append`: trivia is passed over, whatever comes behind it.
-/

namespace ShaderSource.Scan

open List

/-- Blanks, line comments and closed block comments, in any order. A line comment goes up to a line
feed, or, where nothing follows, to the end. -/
inductive IsTrivia (atEnd : Prop) : List Char → Prop
  | nil : IsTrivia atEnd []
  | blank {c cs} : c ∈ [' ', '\t', '\n', '\x0b', '\x0c', '\r'] → IsTrivia atEnd cs →
      IsTrivia atEnd (c :: cs)
  | line {body cs} : '\n' ∉ body → IsTrivia atEnd cs →
      IsTrivia atEnd ('/' :: '/' :: (body ++ '\n' :: cs))
  | lastLine {body} : atEnd → '\n' ∉ body → IsTrivia atEnd ('/' :: '/' :: body)
  | block {body cs} : ¬['*', '/'] <:+: body → IsTrivia atEnd cs →
      IsTrivia atEnd ('/' :: '*' :: (body ++ '*' :: '/' :: cs))

/-- What trivia goes on with in the middle of something. -/
def Continues (atEnd : Prop) : TriviaMode → List Char → Prop
  | .between, cs => IsTrivia atEnd cs
  | .lineComment, cs => (∃ body more, cs = body ++ '\n' :: more ∧ '\n' ∉ body ∧
      IsTrivia atEnd more) ∨ atEnd ∧ '\n' ∉ cs
  | .blockComment, cs => ∃ body more, cs = body ++ '*' :: '/' :: more ∧
      ¬['*', '/'] <:+: body ∧ IsTrivia atEnd more

variable {c : Char} {cs g x : List Char}

attribute [local simp] triviaFrom closesComment

theorem triviaFrom_of_ne_slash (hc : c ≠ '/') (cs : List Char) :
    triviaFrom .between (c :: cs) = if isSpace c then 1 + triviaFrom .between cs else 0 := by
  cases cs with
  | nil => simp
  | cons d cs => simp [hc]

/-- A slash that opens no comment is no trivia. -/
theorem triviaFrom_slash (hline : cs.head? ≠ some '/') (hblock : cs.head? ≠ some '*') :
    triviaFrom .between ('/' :: cs) = 0 := by
  cases cs with
  | nil => rfl
  | cons d cs =>
    have hline : d ≠ '/' := by simpa using hline
    have hblock : d ≠ '*' := by simpa using hblock
    simp [hline, hblock, isSpace]

theorem triviaFrom_blockComment_cons (c : Char) (cs : List Char) :
    triviaFrom .blockComment (c :: cs) =
      if c = '*' ∧ cs.head? = some '/' then 2 + triviaFrom .between cs.tail
      else 1 + triviaFrom .blockComment cs := by
  cases cs with
  | nil => simp
  | cons d cs =>
    by_cases h : c = '*' ∧ d = '/'
    · obtain ⟨rfl, rfl⟩ := h
      simp
    · rw [if_neg (by simpa using h), triviaFrom]
      rintro cs' rfl heq
      exact h ⟨rfl, (cons.inj heq).1⟩

theorem closesComment_cons (c : Char) (cs : List Char) :
    closesComment (c :: cs) =
      if c = '*' ∧ cs.head? = some '/' then true else closesComment cs := by
  cases cs with
  | nil => simp
  | cons d cs =>
    by_cases h : c = '*' ∧ d = '/'
    · obtain ⟨rfl, rfl⟩ := h
      simp
    · rw [if_neg (by simpa using h), closesComment]
      rintro cs' rfl heq
      exact h ⟨rfl, (cons.inj heq).1⟩

theorem triviaFrom_le_length (mode : TriviaMode) (cs : List Char) :
    triviaFrom mode cs ≤ cs.length := by
  fun_induction triviaFrom mode cs <;> simp only [length_cons, length_nil] <;> omega

/-! ### What is passed over -/

/-- What is passed over in a mode is trivia that the mode lets go on. -/
theorem continues_take (mode : TriviaMode) (cs : List Char)
    (hcloses : mode = .blockComment → closesComment cs = true) :
    Continues (cs.drop (triviaFrom mode cs) = []) mode (cs.take (triviaFrom mode cs)) := by
  fun_induction triviaFrom mode cs with
  | case1 cs ih =>
    have hrest := ih (by simp)
    rw [Nat.add_comm, take_succ_cons, take_succ_cons, drop_succ_cons,
      drop_succ_cons]
    rcases hrest with ⟨body, more, hbody, hline, hmore⟩ | ⟨hend, hline⟩
    · rw [hbody]
      exact .line hline hmore
    · exact .lastLine hend hline
  | case2 cs hclosed ih =>
    obtain ⟨body, more, hbody, hblock, hmore⟩ := ih fun _ => hclosed
    rw [Nat.add_comm, take_succ_cons, take_succ_cons, drop_succ_cons,
      drop_succ_cons, hbody]
    exact .block hblock hmore
  | case3 | case5 => exact .nil
  | case4 c cs _ _ hspace ih =>
    have hmore := ih (by simp)
    rw [Nat.add_comm, take_succ_cons, drop_succ_cons]
    exact .blank (by simpa [isSpace, or_assoc] using hspace) hmore
  | case6 cs ih =>
    have hmore := ih (by simp)
    rw [Nat.add_comm, take_succ_cons, drop_succ_cons]
    exact .inl ⟨[], _, rfl, by simp, hmore⟩
  | case7 c cs hc ih =>
    have hrest := ih (by simp)
    rw [Nat.add_comm, take_succ_cons, drop_succ_cons]
    rcases hrest with ⟨body, more, hbody, hline, hmore⟩ | ⟨hend, hline⟩
    · refine .inl ⟨c :: body, more, by rw [hbody]; rfl, ?_, hmore⟩
      simp [hline, Ne.symm hc]
    · exact .inr ⟨hend, by simp [hline, Ne.symm hc]⟩
  | case8 cs ih =>
    have hmore := ih (by simp)
    rw [Nat.add_comm, take_succ_cons, take_succ_cons, drop_succ_cons,
      drop_succ_cons]
    exact ⟨[], _, rfl, by simp, hmore⟩
  | case9 c cs hopen ih =>
    have hclosed : closesComment cs = true := by
      have hwhole := hcloses rfl
      rw [closesComment_cons] at hwhole
      split at hwhole
      · rename_i hend
        obtain ⟨cs', rfl⟩ := head?_eq_some_iff.mp hend.2
        exact (hopen cs' hend.1 rfl).elim
      · exact hwhole
    obtain ⟨body, more, hbody, hblock, hmore⟩ := ih fun _ => hclosed
    rw [Nat.add_comm, take_succ_cons, drop_succ_cons]
    refine ⟨c :: body, more, by rw [hbody]; rfl, ?_, hmore⟩
    rw [infix_cons_iff, not_or]
    refine ⟨fun hend => ?_, hblock⟩
    -- The comment would end here.
    obtain ⟨rest, hrest⟩ := hend
    obtain ⟨rfl, rfl⟩ := cons.inj hrest
    obtain ⟨behind, rfl⟩ := hbody ▸ take_prefix (triviaFrom .blockComment cs) cs
    exact hopen _ rfl rfl
  | case10 mode =>
    cases mode with
    | between => exact .nil
    | lineComment => exact .inr ⟨rfl, by simp⟩
    | blockComment => cases hcloses rfl

/-- **What is passed over is trivia.** -/
theorem isTrivia_take (cs : List Char) :
    IsTrivia (cs.drop (trivia cs) = []) (cs.take (trivia cs)) :=
  continues_take .between cs (by simp)

/-- What is left behind trivia does not begin with any. -/
theorem trivia_drop (mode : TriviaMode) (cs : List Char) :
    trivia (cs.drop (triviaFrom mode cs)) = 0 := by
  fun_induction triviaFrom mode cs with
  | case1 cs ih | case2 cs _ ih | case8 cs ih =>
    rw [Nat.add_comm, drop_succ_cons, drop_succ_cons]
    exact ih
  | case3 cs hopen => rw [drop_zero, trivia, triviaFrom, if_neg hopen]
  | case4 c cs _ _ _ ih | case6 cs ih | case7 c cs _ ih | case9 c cs _ ih =>
    rw [Nat.add_comm, drop_succ_cons]
    exact ih
  | case5 c cs hline hblock hspace =>
    rw [drop_zero, trivia, triviaFrom, if_neg hspace]
    · exact hline
    · exact hblock
  | case10 => rfl

theorem IsTrivia.mono {atEnd atEnd' : Prop} (h : IsTrivia atEnd cs) (hend : atEnd → atEnd') :
    IsTrivia atEnd' cs := by
  induction h with
  | nil => exact .nil
  | blank hc _ ih => exact .blank hc ih
  | line hbody _ ih => exact .line hbody ih
  | lastLine h hbody => exact .lastLine (hend h) hbody
  | block hbody _ ih => exact .block hbody ih

/-! ### Trivia before something else -/

theorem closesComment_append (h : closesComment g = true) (x : List Char) :
    closesComment (g ++ x) = true := by
  induction g with
  | nil => cases h
  | cons c g ih =>
    rw [closesComment_cons] at h
    rw [cons_append, closesComment_cons]
    cases g with
    | nil => simp at h
    | cons d g =>
      rw [cons_append, head?_cons] at *
      split
      · rfl
      · rename_i hne
        rw [if_neg hne] at h
        exact ih h

theorem triviaFrom_lineComment (h : '\n' ∉ g) (x : List Char) :
    triviaFrom .lineComment (g ++ '\n' :: x) = g.length + 1 + trivia x := by
  induction g with
  | nil =>
    rw [nil_append, triviaFrom, if_pos rfl, length_nil, Nat.zero_add]
    rfl
  | cons c g ih =>
    rw [mem_cons, not_or] at h
    rw [cons_append, triviaFrom, if_neg (Ne.symm h.1), ih h.2, length_cons]
    omega

theorem triviaFrom_blockComment (h : ¬['*', '/'] <:+: g) (x : List Char) :
    closesComment (g ++ '*' :: '/' :: x) = true ∧
      triviaFrom .blockComment (g ++ '*' :: '/' :: x) = g.length + 2 + trivia x := by
  induction g with
  | nil => exact ⟨rfl, by rw [length_nil, Nat.zero_add]; rfl⟩
  | cons c g ih =>
    rw [infix_cons_iff, not_or] at h
    obtain ⟨hcloses, htrivia⟩ := ih h.2
    -- The end of the comment does not begin here.
    have hopen : ¬(c = '*' ∧ (g ++ '*' :: '/' :: x).head? = some '/') := by
      rintro ⟨rfl, hhead⟩
      cases g with
      | nil => cases hhead
      | cons d g =>
        obtain rfl : d = '/' := Option.some.inj hhead
        exact h.1 ⟨g, rfl⟩
    rw [cons_append, closesComment_cons, triviaFrom_blockComment_cons, if_neg hopen,
      if_neg hopen, htrivia, length_cons]
    exact ⟨hcloses, by omega⟩

/-- **Trivia is passed over, whatever comes behind it.** -/
theorem IsTrivia.trivia_append (h : IsTrivia False g) (x : List Char) :
    trivia (g ++ x) = g.length + trivia x := by
  induction h with
  | nil => simp
  | @blank c cs hc _ ih =>
    have hspace : isSpace c = true := by simpa [isSpace, or_assoc] using hc
    have hslash : c ≠ '/' := by
      rintro rfl
      cases hspace
    rw [cons_append, trivia, triviaFrom_of_ne_slash hslash, if_pos hspace, ← trivia, ih,
      length_cons]
    omega
  | @line body cs hbody _ ih =>
    rw [cons_append, cons_append, append_assoc, cons_append, trivia, triviaFrom,
      triviaFrom_lineComment hbody, ih]
    simp only [length_cons, length_append]
    omega
  | lastLine h => exact h.elim
  | @block body cs hbody _ ih =>
    obtain ⟨hcloses, htrivia⟩ := triviaFrom_blockComment hbody (cs ++ x)
    rw [cons_append, cons_append, append_assoc, cons_append, cons_append,
      trivia, triviaFrom, if_pos hcloses, htrivia, ih]
    simp only [length_cons, length_append]
    omega

/-- What is passed over before a text is passed over before another that does not begin with trivia
either. -/
theorem trivia_append_congr {y : List Char} (h : trivia (g ++ x) = g.length)
    (hnil : x = [] → y = []) (hy : trivia y = 0) : trivia (g ++ y) = g.length := by
  by_cases hx : x = []
  · rw [hnil hx, ← hx, h]
  · have htake := isTrivia_take (g ++ x)
    rw [h, take_left, drop_left] at htake
    rw [(htake.mono hx).trivia_append, hy, Nat.add_zero]

end ShaderSource.Scan
