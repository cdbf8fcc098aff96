import ShaderSource.Proofs.Yield

/-!
# Reserved words in trees

Nodes of reserved words are made of one terminal that is a reserved word, so that they hold words.

## Main results

* `readTree_keywords`: nodes of reserved words hold words.
-/

namespace ShaderSource

open Terminal

/-- Whether the terminal is a reserved word. -/
def Terminal.isReserved : Terminal → Bool
  | .keyword _ => true
  | .keywordOf _ => true
  | .precisionQualifier => true
  | _ => false

/-- Whether a node of a reserved word would be made of one. -/
def Making.reserves : Making → Bool
  | .whole .keyword [.token t] => t.isReserved
  | .whole kind _ | .around _ kind _ | .joined kind => kind != .keyword

theorem Grammar.makes_reserved : Grammar.Makes Making.reserves fun _ => true where
  rules r := by
    cases r with
    | binary level => rfl
    | _ => decide +kernel
  initializer := by decide +kernel

theorem Start.phrase_reserved (start : Start) :
    start.phrase.makes Making.reserves (fun _ => true) = true := by
  cases start <;> decide +kernel

theorem Terminal.isKeyword_of_accepts {t : Terminal} {l : Lexeme} (ht : t.isReserved = true)
    (h : t.accepts l = true) : isKeyword l.kind = true := by
  cases t <;> simp_all [isReserved, accepts, isKeyword]

/-- A reserved word in a source is a word. -/
theorem Lexemes.isWord_of_isKeyword {text : String} {l : Lexeme}
    (hl : l ∈ (ofString text).body.toList) (h : isKeyword l.kind = true) :
    Scan.isWord l.text.toList = true := by
  obtain ⟨rest, c, cs, htext, hlexeme, -⟩ := (ofString_standing text).standsBefore hl
  rw [htext]
  by_cases hc : Scan.startsWord c = true
  · obtain ⟨hcs, -⟩ := Scan.of_lexeme_word hc hlexeme
    rw [Scan.isWord, hc, Bool.true_and, List.all_eq_true]
    exact hcs
  · -- Lexemes that begin otherwise are of other kinds.
    have hkind := congrArg Prod.fst hlexeme
    simp only at hkind
    rw [← hkind, Scan.lexeme] at h
    simp only [hc, Bool.false_eq_true, if_false] at h
    split at h
    · cases h
    · split at h
      · have hnumber := Scan.number_kind (c :: (cs ++ (l.trivia.toList ++ rest)))
        revert h hnumber
        cases (Scan.number (c :: (cs ++ (l.trivia.toList ++ rest)))).1 <;>
          simp [isKeyword, LexemeKind.isNumber]
      · split at h
        · cases h
        · split at h <;> cases h

/-- A node of a reserved word holds a word. -/
def Node.HoldsWord (n : Node) : Prop :=
  n.kind = .keyword → ∃ t, n.parts = [.token t] ∧ Scan.isWord t.text.toList = true

/-- Nodes of reserved words in the tree of a source hold words. -/
theorem readTree_keywords {start : Start} {text : String} {located : Bool} {source : Option String}
    {root : Node} (h : readTree start ⟨Lexemes.ofString text, located⟩ source = .ok root) :
    root.All Node.HoldsWord := by
  refine readTree_makes Grammar.makes_reserved start.phrase_reserved
    (fun making n hok hmade => ?_) (fun _ _ _ hkind => by cases hkind) h
  cases hmade with
  | @whole kind items ps i _ hps =>
    rintro rfl
    unfold Making.reserves at hok
    split at hok
    · rename_i t heq
      cases heq
      cases hps with
      | cons hitem hrest =>
        cases hrest
        cases hitem with
        | token haccepts =>
          refine ⟨_, rfl, ?_⟩
          have hkeyword := isKeyword_of_accepts hok haccepts
          rcases Lexemes.get_cases text i with ⟨hmem, -⟩ | ⟨hend, -⟩
          · exact Lexemes.isWord_of_isKeyword hmem hkeyword
          · rw [Lexeme.isEnd, beq_iff_eq] at hend
            rw [Input.lexeme, hend] at hkeyword
            cases hkeyword
    · rename_i heq
      cases heq
      cases hok
    all_goals rename_i heq; cases heq
  | around | joined =>
    rintro rfl
    cases hok

end ShaderSource
