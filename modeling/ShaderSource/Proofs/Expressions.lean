import ShaderSource.Proofs.Blanks
import ShaderSource.Proofs.Content
import ShaderSource.Proofs.Outcome
import ShaderSource.Proofs.Precedence

/-!
# Expressions that can be printed

The trees of expressions that can be written down: operands bind tightly enough to stand where they
stand, every token is of its class and has blanks behind it, and lists have a comma between any two
items. When such an expression is read, its tokens stand one after the other, and how far a phrase
goes is settled by the token behind it.

## Main definitions

* `Node.IsExpression`: the tree is an expression in the order of the grammar.
* `Input.Path`: tokens stand at consecutive places of an input.
* `Lexeme.EndsFrom`: a lexeme continues no expression that binds as tightly as a given grade.
-/

namespace ShaderSource

open List

variable {t : Terminal} {l : Lexeme} {grade : Nat} {marks : List String}

/-- The tokens are commas between items: one less than there are items, and none if there are no
items. -/
structure Token.Separate (commas : List Token) (items : List Node) : Prop where
  length : commas.length = items.length - 1
  comma : ∀ t ∈ commas, t.Spells (.punct [","])

/-- Expressions in the order of the grammar: operators have operands that bind tightly enough, and
every token is of its class and has blanks behind it. -/
inductive Node.IsExpression : Node → Prop
  | identifier {id : NodeId} {span : Option Span} {t : Token} :
      t.Spells .identifier → IsExpression (.mk .identifier id span [.token t])
  | literal {id : NodeId} {span : Option Span} {t : Token} :
      t.Spells .literal → IsExpression (.mk .literal id span [.token t])
  | group {id : NodeId} {span : Option Span} {opening closing : Token} {e : Node} :
      opening.Spells (.punct ["("]) → IsExpression e → closing.Spells (.punct [")"]) →
      IsExpression (.mk .group id span [.token opening, .child e, .token closing])
  | unary {id : NodeId} {span : Option Span} {t : Token} {e : Node} :
      t.Spells (.punct Grammar.unaryOperators) → IsExpression e → e.kind ∈ Kind.unaries →
      IsExpression (.mk .unary id span [.token t, .child e])
  | binary {id : NodeId} {span : Option Span} {t : Token} {left right : Node} {level : Fin 11} :
      IsExpression left → left.BindsFrom level → t.Spells (.punct (Grammar.binaryOperators level)) →
      IsExpression right → right.BindsFrom (level + 1) →
      IsExpression (.mk .binary id span [.child left, .token t, .child right])
  /-- An operand with an index, or with brackets without one. -/
  | index {id id' : NodeId} {span span' : Option Span} {opening closing : Token} {e : Node}
      {inner : Option Node} :
      IsExpression e → e.kind ∈ Kind.operands → opening.Spells (.punct ["["]) →
      (∀ n, inner = some n → IsExpression n) → closing.Spells (.punct ["]"]) →
      IsExpression (.mk .postfixExpr id span [.child e, .child (.mk .arraySpecifier id' span'
        [.token opening, .optChild inner, .token closing])])
  | step {id id' : NodeId} {span span' : Option Span} {t : Token} {e : Node} :
      IsExpression e → e.kind ∈ Kind.operands → t.Spells (.punct Grammar.stepOperators) →
      IsExpression (.mk .postfixExpr id span [.child e,
        .child (.mk .postfixOperator id' span' [.token t])])
  | field {id id' : NodeId} {span span' : Option Span} {dot name : Token} {e : Node} :
      IsExpression e → e.kind ∈ Kind.operands → dot.Spells (.punct ["."]) →
      name.Spells .identifier →
      IsExpression (.mk .postfixExpr id span [.child e,
        .child (.mk .fieldSelection id' span' [.token dot, .token name])])
  /-- A call of a function by its name. -/
  | call {id id' : NodeId} {span span' : Option Span} {name opening closing : Token}
      {arguments : List Node} {commas : List Token} :
      name.Spells .identifier → opening.Spells (.punct ["("]) →
      (∀ a ∈ arguments, IsExpression a) → (∀ a ∈ arguments, a.kind ≠ .sequence) →
      Token.Separate commas arguments → closing.Spells (.punct [")"]) →
      IsExpression (.mk .functionCall id span [.child (.mk .identifier id' span' [.token name]),
        .token opening, .separated arguments commas, .token closing])
  /-- A call of what an operand selects. -/
  | method {id id' id'' : NodeId} {span span' span'' : Option Span}
      {dot name opening closing : Token} {e : Node} {arguments : List Node} {commas : List Token} :
      IsExpression e → e.kind ∈ Kind.operands → dot.Spells (.punct ["."]) →
      name.Spells .identifier → opening.Spells (.punct ["("]) →
      (∀ a ∈ arguments, IsExpression a) → (∀ a ∈ arguments, a.kind ≠ .sequence) →
      Token.Separate commas arguments → closing.Spells (.punct [")"]) →
      IsExpression (.mk .functionCall id span [.child (.mk .postfixExpr id' span' [.child e,
        .child (.mk .fieldSelection id'' span'' [.token dot, .token name])]),
        .token opening, .separated arguments commas, .token closing])
  | ternary {id : NodeId} {span : Option Span} {question colon : Token}
      {condition value alternate : Node} :
      IsExpression condition → condition.BindsFrom 0 → question.Spells (.punct ["?"]) →
      IsExpression value → colon.Spells (.punct [":"]) → IsExpression alternate →
      alternate.kind ≠ .sequence →
      IsExpression (.mk .ternary id span
        [.child condition, .token question, .child value, .token colon, .child alternate])
  | assignment {id : NodeId} {span : Option Span} {t : Token} {left right : Node} :
      IsExpression left → left.kind ∈ Kind.unaries →
      t.Spells (.punct Grammar.assignmentOperators) → IsExpression right →
      right.kind ≠ .sequence →
      IsExpression (.mk .assignment id span [.child left, .token t, .child right])
  | sequence {id : NodeId} {span : Option Span} {items : List Node} {commas : List Token} :
      2 ≤ items.length → (∀ e ∈ items, IsExpression e) → (∀ e ∈ items, e.kind ≠ .sequence) →
      Token.Separate commas items →
      IsExpression (.mk .sequence id span [.separated items commas])

/-! ### Places of tokens -/

/-- The tokens stand at the places from `i` to before `j`. -/
def Input.Path (input : Input) : (i : Nat) → List Token → (j : Nat) → Prop
  | i, [], j => i = j
  | i, t :: ts, j => i < input.bound ∧ (input.lexeme i).token = t ∧
      Scan.kind? t.text = some (input.lexeme i).kind ∧ input.Path (i + 1) ts j

namespace Input

variable {input : Input} {i j : Nat} {ts us : List Token}

theorem path_append : input.Path i (ts ++ us) j ↔ ∃ k, input.Path i ts k ∧ input.Path k us j := by
  induction ts generalizing i with
  | nil => simp [Path]
  | cons t ts ih =>
    simp only [cons_append, Path, ih]
    constructor
    · rintro ⟨hlt, htoken, hkind, k, hts, hus⟩
      exact ⟨k, ⟨hlt, htoken, hkind, hts⟩, hus⟩
    · rintro ⟨k, ⟨hlt, htoken, hkind, hts⟩, hus⟩
      exact ⟨hlt, htoken, hkind, k, hts, hus⟩

theorem Path.length_le (h : input.Path i ts j) : ts.length ≤ input.bound := by
  have hboth : i + ts.length = j ∧ (ts ≠ [] → j ≤ input.bound) := by
    induction ts generalizing i with
    | nil => exact ⟨h, fun hne => absurd rfl hne⟩
    | cons t ts ih =>
      obtain ⟨hlt, -, -, hts⟩ := h
      obtain ⟨hlength, hbound⟩ := ih hts
      refine ⟨by rw [length_cons]; omega, fun _ => ?_⟩
      cases ts with
      | nil =>
        simp only [length_nil] at hlength
        omega
      | cons t' ts => exact hbound (by simp)
  cases ts with
  | nil => exact Nat.zero_le _
  | cons t ts =>
    have hbound := hboth.2 (by simp)
    omega

end Input

theorem Terminal.accepts_congr {l' : Lexeme} (hkind : l.kind = l'.kind) (htext : l.text = l'.text) :
    t.accepts l = t.accepts l' := by
  cases t <;> simp [Terminal.accepts, hkind, htext]

theorem Token.Spells.accepts {tok : Token} (h : tok.Spells t) (htoken : l.token = tok)
    (hkind : Scan.kind? tok.text = some l.kind) : t.accepts l = true := by
  obtain ⟨kind, hkind', haccepts⟩ := h.lexeme
  obtain rfl : l.kind = kind := Option.some.inj (hkind.symm.trans hkind')
  rw [← haccepts]
  exact Terminal.accepts_congr rfl (congrArg Token.text htoken)

/-- A token that stands at a place: the terminal that it spells is accepted there. -/
theorem Token.Spells.at {input : Input} {tok : Token} {ts : List Token} {i j : Nat}
    (h : tok.Spells t) (hpath : input.Path i (tok :: ts) j) :
    t.accepts (input.lexeme i) = true ∧ (input.lexeme i).token = tok ∧ input.Path (i + 1) ts j := by
  obtain ⟨-, htoken, hkind, hts⟩ := hpath
  exact ⟨h.accepts htoken hkind, htoken, hts⟩

namespace Terminal

variable {l : Lexeme} {marks marks' : List String}

/-- A mark is not one of others. -/
theorem refuses_of_disjoint (h : (punct marks).accepts l = true)
    (hdisjoint : ∀ m ∈ marks, m ∉ marks') :
    (punct marks').accepts l = false := by
  simp only [accepts, Bool.and_eq_true, beq_iff_eq, contains_iff_mem] at h
  simp [accepts, hdisjoint _ h.2]

theorem refuses_of_subset (h : (punct marks).accepts l = false) (hsubset : marks' ⊆ marks) :
    (punct marks').accepts l = false := by
  cases haccepts : (punct marks').accepts l with
  | false => rfl
  | true =>
    simp only [accepts, Bool.and_eq_true, beq_iff_eq, contains_iff_mem] at haccepts
    simp [accepts, haccepts.1, hsubset haccepts.2] at h

theorem refuses_of_kind (h : l.kind ≠ .punctuation) : (punct marks).accepts l = false := by
  simp [accepts, h]

theorem kind_of_identifier (h : identifier.accepts l = true) : l.kind = .identifier := by
  simpa [accepts] using h

theorem kind_of_literal (h : literal.accepts l = true) :
    l.kind = .intConstant ∨ l.kind = .floatConstant ∨ l.kind = .boolConstant := by
  simpa [accepts, or_assoc] using h

theorem kind_of_punct (h : (punct marks).accepts l = true) : l.kind = .punctuation := by
  simp only [accepts, Bool.and_eq_true, beq_iff_eq] at h
  exact h.1

end Terminal

/-! ### Where expressions end -/

/-- What continues an expression, the loosest first: commas, assignments, conditions, the levels of
binary operators, and what stands right behind an operand. -/
def Grammar.continuations : List (List String) :=
  [[","], assignmentOperators, ["?"]] ++ (List.finRange 11).map binaryOperators ++
    [["[", "(", "++", "--", "."]]

/-- The lexeme does not continue an expression of the given grade or a tighter one. -/
def Lexeme.EndsFrom (grade : Nat) (l : Lexeme) : Prop :=
  (Terminal.punct (Grammar.continuations.drop grade).flatten).accepts l = false

theorem Lexeme.EndsFrom.mono {grade' : Nat} (h : l.EndsFrom grade) (hle : grade ≤ grade') :
    l.EndsFrom grade' := by
  refine Terminal.refuses_of_subset h fun m hm => ?_
  obtain ⟨ms, hms, hm⟩ := mem_flatten.mp hm
  exact mem_flatten.mpr ⟨ms, (drop_sublist_drop_left _ hle).subset hms, hm⟩

theorem Lexeme.EndsFrom.refuses (h : l.EndsFrom grade) (grade' : Nat)
    (hmarks : Grammar.continuations[grade']? = some marks) (hle : grade ≤ grade') :
    (Terminal.punct marks).accepts l = false := by
  refine Terminal.refuses_of_subset (h.mono hle) fun m hm => mem_flatten.mpr ⟨marks, ?_, hm⟩
  obtain ⟨hlt, rfl⟩ := List.getElem?_eq_some_iff.mp hmarks
  rw [drop_eq_getElem_cons hlt]
  exact mem_cons_self

theorem Lexeme.endsFrom_of_punct (h : (Terminal.punct marks).accepts l = true)
    (hmarks : (marks.all fun m => !(Grammar.continuations.drop grade).flatten.contains m) = true) :
    l.EndsFrom grade := by
  refine Terminal.refuses_of_disjoint h fun m hm => ?_
  simpa using all_eq_true.mp hmarks m hm

end ShaderSource
