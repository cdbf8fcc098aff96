import ShaderSource.Proofs.Acceptance
import ShaderSource.Proofs.LexemePositions
import ShaderSource.Proofs.Lockstep

/-!
# Syntax errors are final

An error tells of the furthest lexeme that was refused, and of what was expected in its place. No
lexeme behind it was looked at. So every source that is the same up to that lexeme has the same
error there, whatever comes behind, and no continuation can mend it.

The lexeme is known by its range, for no two lexemes have the same one.

## Main results

* `readTree_fails_of_agrees`: where a source fails, so does one with the same words up to there.
* `Program.parse_unexpected_final`: sources that agree up to the lexeme of an error have that error.
-/

namespace ShaderSource

variable {text text' : String} {options : Options}

theorem Program.judged_ne_unexpected (p : Program) (strict : Bool) (e : Unexpected) :
    p.judged strict ≠ .error (.unexpected e) := by
  rw [judged, unreported]
  cases strict <;> cases p.diagnostics <;> simp

/-- A program that does not follow the grammar fails when it is read. -/
theorem Program.readTree_of_unexpected {e : Unexpected}
    (h : Program.parse text options = .error (.unexpected e)) :
    Program.readText text options = .error (.unexpected e) := by
  rw [parse_eq] at h
  cases htree : Program.readText text options with
  | error e' =>
    rw [htree] at h
    exact congrArg Except.error (Except.error.inj h)
  | ok tree =>
    rw [htree] at h
    cases (ofRead tree).judged_ne_unexpected options.strict e h

/-! ### Nothing behind an error is looked at -/

/-- A source that does not follow the grammar is read until all has failed. -/
theorem readTree_unexpected {start : Start} {located : Bool} {source : Option String}
    {e : Unexpected}
    (h : readTree start ⟨Lexemes.ofString text, located⟩ source = .error (.unexpected e)) :
    ∃ t, start.outcome ⟨Lexemes.ofString text, located⟩ = .ok (none, t) ∧
      t.failure.error ⟨Lexemes.ofString text, located⟩ source = .unexpected e := by
  rw [readTree_eq] at h
  rcases houtcome : start.outcome ⟨Lexemes.ofString text, located⟩ with e' | ⟨_ | _, t⟩
  all_goals rw [houtcome] at h
  · obtain rfl := Except.error.inj h
    rcases Start.outcome_error houtcome with ⟨span, hspan⟩ | ⟨span, hspan⟩ <;> cases hspan
  · exact ⟨t, rfl, Except.error.inj h⟩
  · cases h

/-- Where a source fails, so does one with the same words up to the furthest failure. -/
theorem readTree_fails_of_agrees {start : Start} {located : Bool}
    {t : Progress Memo} (source : Option String)
    (h : start.outcome ⟨Lexemes.ofString text, located⟩ = .ok (none, t))
    (hwords : ∀ i ≤ t.failure.place,
      ((Lexemes.ofString text).get i).word = ((Lexemes.ofString text').get i).word) :
    readTree start ⟨Lexemes.ofString text', located⟩ source =
      .error (t.failure.error ⟨Lexemes.ofString text', located⟩ source) := by
  have hview : Start.Views (Lexemes.ofString text).leading (Lexemes.ofString text').leading
      Token.plain fun _ => () :=
    fun _ _ _ _ _ => rfl
  have hfollows := start.outcome_follows (Alignment.ofSources text text' located) hview
  rw [show start.outcome (Alignment.ofSources text text' located).first = .ok (none, t) from h]
    at hfollows
  have hfailed := hfollows fun i hi => hwords i (Nat.le_of_lt_succ hi)
  change (Alignment.ofSources text text' located).Follows _ _
    (start.outcome ⟨Lexemes.ofString text', located⟩) at hfailed
  rw [readTree_eq]
  generalize start.outcome ⟨Lexemes.ofString text', located⟩ = o at hfailed ⊢
  cases hfailed with
  | failed hm =>
    have hfailure : t.failure = _ := hm.failure
    rw [hfailure]
    rfl

/-- A source ends where another one ends that has the same words. -/
theorem Lexemes.size_le_of_word_eq {i : Nat}
    (hword : ((ofString text).get i).word = ((ofString text').get i).word)
    (hi : (ofString text).body.size ≤ i) : (ofString text').body.size ≤ i := by
  refine size_le_of_isEnd ?_
  rw [get_of_size_le hi] at hword
  rw [Lexeme.isEnd, ← (Prod.mk.inj hword).1]
  rfl

/-- Words that are the same up to the lexeme of a place are so up to that place. -/
theorem Lexemes.word_eq_of_span_eq {k place : Nat} (hk : k ≤ (ofString text).body.size)
    (hspan : ((ofString text).get k).span = ((ofString text).get place).span)
    (hwords : ∀ i ≤ k, ((ofString text).get i).word = ((ofString text').get i).word) :
    (∀ i ≤ place, ((ofString text).get i).word = ((ofString text').get i).word) ∧
      (ofString text').get place = (ofString text').get k := by
  by_cases hplace : place ≤ (ofString text).body.size
  · obtain rfl := eq_of_span hk hplace hspan
    exact ⟨hwords, rfl⟩
  · -- the place is behind the end, and there both sources have nothing but their end
    have hlt := Nat.lt_of_not_le hplace
    rw [get_of_size_le (Nat.le_of_lt hlt), ← get_of_size_le (Nat.le_refl _)] at hspan
    obtain rfl := eq_of_span hk (Nat.le_refl _) hspan
    have hsize := size_le_of_word_eq (hwords _ (Nat.le_refl _)) (Nat.le_refl _)
    have hend : ∀ i, (ofString text).body.size ≤ i →
        (ofString text).get i = (ofString text).final ∧
          (ofString text').get i = (ofString text').final :=
      fun i hi => ⟨get_of_size_le hi, get_of_size_le (Nat.le_trans hsize hi)⟩
    constructor
    · intro i _
      rcases Nat.le_total i (ofString text).body.size with hi | hi
      · exact hwords i hi
      · rw [(hend i hi).1, (hend i hi).2]
        rfl
    · rw [(hend _ (Nat.le_of_lt hlt)).2, (hend _ (Nat.le_refl _)).2]

/-- **Syntax errors are final**: a source with the same words up to the lexeme that an error tells
of has an error at that lexeme too, where the same was expected and the same was found. -/
theorem Program.parse_unexpected_final {text text' : String} {options : Options} {e : Unexpected}
    (h : Program.parse text options = .error (.unexpected e)) {k : Nat}
    (hk : k ≤ (Lexemes.ofString text).body.size)
    (hspan : ((Lexemes.ofString text).get k).span = e.span)
    (hwords : ∀ i ≤ k,
      ((Lexemes.ofString text).get i).word = ((Lexemes.ofString text').get i).word) :
    k ≤ (Lexemes.ofString text').body.size ∧
      ∃ e', Program.parse text' options = .error (.unexpected e') ∧
        e'.span = ((Lexemes.ofString text').get k).span ∧ e'.expected = e.expected ∧
        e'.found = e.found := by
  obtain ⟨t, hrun, herror⟩ := readTree_unexpected (Program.readTree_of_unexpected h)
  obtain rfl := Error.unexpected.inj herror
  obtain ⟨hagree, hget⟩ := Lexemes.word_eq_of_span_eq hk hspan hwords
  constructor
  · refine Nat.le_of_not_lt fun hlt => ?_
    have hsize := Lexemes.size_le_of_word_eq (hwords _ (Nat.le_of_lt hlt)).symm (Nat.le_refl _)
    omega
  · refine ⟨_, Program.parse_of_readTree_error
      (readTree_fails_of_agrees options.source hrun hagree), ?_, rfl, ?_⟩
    · exact congrArg Lexeme.span hget
    · exact (Lexeme.found_eq_of_word (hagree t.failure.place (Nat.le_refl _))).symm

/-- A parse that fails, from the evaluation of its outcome without the program. -/
theorem Program.parse_of_map_error {e : Error}
    (h : (Program.parse text options).map (fun _ => ()) = .error e) :
    Program.parse text options = .error e := by
  cases hparse : Program.parse text options with
  | ok p =>
    rw [hparse] at h
    cases h
  | error e' =>
    rw [hparse] at h
    exact congrArg Except.error (Except.error.inj h)

/-- Two sources that are alike up to the `;` in an open call, and differ in what follows it. -/
theorem Program.parse_unexpected_final_call :
    ∃ e e', Program.parse "int a = f(1, ; int b;" Options.default = .error (.unexpected e) ∧
      Program.parse "int a=f(1,;2)/* late */;" Options.default = .error (.unexpected e') ∧
      e'.span = ((Lexemes.ofString "int a=f(1,;2)/* late */;").get 7).span ∧
      e'.expected = e.expected ∧ e'.found = e.found := by
  have heval : (Program.parse "int a = f(1, ; int b;" Options.default).map (fun _ => ()) =
      .error (.unexpected
        ⟨["\"!\"", "\"(\"", "\"+\"", "\"++\"", "\"-\"", "\"--\"", "\"struct\"", "\"~\"",
            "identifier", "literal", "type specifier"],
          some ";", ⟨⟨13, 1, 14⟩, ⟨14, 1, 15⟩⟩, none⟩) := by
    decide +kernel
  have hparse := Program.parse_of_map_error heval
  have hwords : ∀ i ≤ 7, ((Lexemes.ofString "int a = f(1, ; int b;").get i).word =
      ((Lexemes.ofString "int a=f(1,;2)/* late */;").get i).word := by decide +kernel
  obtain ⟨-, e', hparse', hsame⟩ := Program.parse_unexpected_final hparse (by decide +kernel)
    (by decide +kernel) hwords
  exact ⟨_, e', hparse, hparse', hsame⟩

end ShaderSource
