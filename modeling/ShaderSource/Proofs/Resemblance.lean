import ShaderSource.Proofs.Lockstep

/-!
# Sources that look alike are read alike

Reading looks at the kinds of lexemes and at the texts of those that are not names. So two sources
with lexemes of the same kinds, one for one, and the same texts but for names, are read the same
way: where one matches, so does the other, and the trees have the same shape.

## Main results

* `readTree_mirrors`: sources that look alike have trees of the same shape.
-/

namespace ShaderSource

open Lexemes

/-! ### Lexemes that look alike -/

/-- Two lexemes look alike to the grammar: they have the same kind, and the same text unless they
are names. -/
structure Lexeme.LooksLike (l m : Lexeme) : Prop where
  kind : m.kind = l.kind
  text : m.text = l.text ∨ l.kind = .identifier

/-- Two inputs have lexemes that look alike, one for one. -/
structure Input.LooksLike (input input' : Input) : Prop where
  bound : input'.bound = input.bound
  lexeme : ∀ k, (input.lexeme k).LooksLike (input'.lexeme k)

theorem Lexeme.LooksLike.accepts {l m : Lexeme} (h : l.LooksLike m) (t : Terminal) :
    t.accepts m = t.accepts l := by
  rcases h.text with htext | hkind
  · cases t <;> simp only [Terminal.accepts, h.kind, htext]
  · have hkind' := h.kind.trans hkind
    cases t <;> simp only [Terminal.accepts, hkind, hkind'] <;> rfl

/-! ### Trees of the same shape -/

/-- Two sources that look alike side by side, their tokens left out. -/
def Alignment.ofLookalikes {text text' : String} {located located' : Bool}
    (h : Input.LooksLike ⟨ofString text, located⟩ ⟨ofString text', located'⟩) :
    Alignment where
  first := ⟨ofString text, located⟩
  second := ⟨ofString text', located'⟩
  Agrees _ := True
  tidy _ := default
  Failures _ _ := True
  Errors _ _ := True
  failures_initial := trivial
  first_regular := ofString_regular text located
  second_regular := ofString_regular text' located'
  accepts_eq x _ t := (h.lexeme x).accepts t
  tidy_eq _ _ := rfl
  note _ _ _ _ _ := trivial
  tooDeep _ := trivial
  forbidden _ := trivial

/-- **Sources that look alike have trees of the same shape.** -/
theorem readTree_mirrors {text text' : String} {located located' : Bool}
    (hlike : Input.LooksLike ⟨ofString text, located⟩ ⟨ofString text', located'⟩)
    (hleading : (ofString text).leading = (ofString text').leading) {start : Start}
    {source : Option String} {root : Node}
    (h : readTree start ⟨ofString text, located⟩ source = .ok root)
    (source' : Option String) :
    ∃ root', readTree start ⟨ofString text', located'⟩ source' = .ok root' ∧
      root.shape = root'.shape := by
  have hview : Start.Views (ofString text).leading (ofString text').leading
      (fun _ => default) Node.shape := by
    intro ns ms span span' hns
    simp only [Node.shape, Node.retoken_mk, List.map_cons, List.map_nil, Part.retoken_text,
      Part.retoken_list, hns, hleading]
  have hfollows : (Alignment.ofLookalikes hlike).Follows Node.shape
      (start.outcome ⟨ofString text, located⟩)
      (start.outcome ⟨ofString text', located'⟩) :=
    start.outcome_follows (Alignment.ofLookalikes hlike) hview
      (.of_agrees (fun _ => trivial) _ _)
  rw [readTree_eq] at h ⊢
  generalize start.outcome ⟨ofString text, located⟩ = o at h hfollows
  generalize start.outcome ⟨ofString text', located'⟩ = o' at hfollows ⊢
  cases hfollows with
  | error => cases h
  | failed => cases h
  | @matched n m y t t' hshape _ =>
    obtain rfl : n = root := Except.ok.inj h
    exact ⟨m, rfl, hshape⟩

end ShaderSource
