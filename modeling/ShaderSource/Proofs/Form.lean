import ShaderSource.Proofs.Derivation
import ShaderSource.Proofs.Tree

/-!
# The forms of nodes

The form of a kind lists its parts with the kinds of the nodes that may stand in them. It refines
`Kind.layout`. A node fits if its parts follow the form of its kind, and the separators of its
lists are in step with their nodes.

Every node of a tree that was read fits. That the productions yield nodes that fit is checked on
them: the items of a production fill the fields of a form one after the other, and the kinds that
a phrase can yield are compared with those that the field admits. The rest is an induction on
derivations. Neither numbering nor exchanging callees takes the tree out of its forms, the callee
of a call being a type specifier before and an identifier after.

## Main results

* `Kind.layout_eq_form`: the shapes of a form are the layout of the kind.
* `Derives.fitting`: what is derived from phrases that fit, fits.
* `readTree_allFit`: all nodes of a tree that was read fit.
* `Node.number_allFit`, `Node.exchangeCallees_allFit`: they still do when names are bound.
-/

namespace ShaderSource

open List Node Option ShaderSource.Part

variable {n : Node} {p : Part} {k : Kind} {ps : List Part}
  {motive : Node → Prop} {rest : List (Token × Node)} {span : Option Span}

/-! ### Fields -/

/-- A part in the form of a kind: its shape, and the kinds of the nodes that may stand in it. -/
structure Field where
  shape : PartShape
  kinds : List Kind
  deriving DecidableEq, Repr

namespace Field

/-- A field for a token. -/
def token : Field := ⟨.token, []⟩

/-- A field for one node. -/
def child (kinds : List Kind) : Field := ⟨.child, kinds⟩

/-- A field for a node that may be absent. -/
def optChild (kinds : List Kind) : Field := ⟨.optChild, kinds⟩

/-- A field for any number of nodes. -/
def list (kinds : List Kind) : Field := ⟨.list, kinds⟩

/-- A field for nodes with commas between them. -/
def separated (kinds : List Kind) : Field := ⟨.separated, kinds⟩

end Field

variable {f : Field} {fs : List Field}

namespace Kind

/-- What a suffix can stand after. -/
def operands : List Kind :=
  [.identifier, .literal, .group, .postfixExpr, .functionCall]

/-- Operands with operators in front of them. -/
def unaries : List Kind :=
  .unary :: operands

/-- Expressions without conditions and assignments. -/
def binaries : List Kind :=
  .binary :: unaries

/-- Expressions without assignments. -/
def ternaries : List Kind :=
  .ternary :: binaries

/-- Expressions without commas. -/
def assignments : List Kind :=
  .assignment :: ternaries

/-- Expressions. -/
def expressions : List Kind :=
  .sequence :: assignments

/-- What a variable can be initialized with. -/
def initializers : List Kind :=
  .initializerList :: assignments

/-- Conditions of loops. -/
def conditions : List Kind :=
  .conditionExpression :: expressions

/-- Qualifiers of types. -/
def qualifiers : List Kind :=
  [.layoutQualifier, .keyword]

/-- Types without their dimensions. -/
def types : List Kind :=
  [.keyword, .typeName, .structSpecifier]

/-- Declarations without their semicolons. -/
def declarations : List Kind :=
  [.functionPrototype, .interfaceBlock, .precision, .declaratorList, .qualifierDeclarator]

/-- Statements. -/
def statements : List Kind :=
  [.preprocessor, .ifStatement, .switchStatement, .whileStatement, .doStatement, .forStatement,
    .returnStatement, .jumpStatement, .compoundStatement, .declarationStatement,
    .expressionStatement]

/-- What a source is made of, whatever it is read as. -/
def sources : List Kind :=
  .functionDefinition :: statements ++ expressions

/-- The parts of a node of this kind with the kinds of nodes in them. -/
def form : Kind → List Field
  | .program => [⟨.text, []⟩, .list sources]
  | .preprocessor => [.token]
  | .keyword => [.token]
  | .identifier => [.token]
  | .typeName => [.token]
  | .literal => [.token]
  | .group => [.token, .child expressions, .token]
  | .binary => [.child binaries, .token, .child binaries]
  | .unary => [.token, .child unaries]
  | .postfixExpr =>
    [.child operands, .child [.arraySpecifier, .postfixOperator, .fieldSelection]]
  | .fieldSelection => [.token, .token]
  | .arraySpecifier => [.token, .optChild expressions, .token]
  | .postfixOperator => [.token]
  | .functionCall =>
    [.child [.typeSpecifier, .identifier, .postfixExpr], .token,
      .separated (.keyword :: assignments), .token]
  | .ternary => [.child binaries, .token, .child expressions, .token, .child assignments]
  | .assignment => [.child unaries, .token, .child assignments]
  | .sequence => [.separated assignments]
  | .initializerList => [.token, .separated initializers, .token]
  | .typeSpecifier => [.child types, .list [.arraySpecifier]]
  | .fullySpecifiedType => [.list qualifiers, .child [.typeSpecifier]]
  | .layoutQualifier => [.token, .token, .separated [.layoutQualifierId], .token]
  | .layoutQualifierId => [.token, ⟨.optToken, []⟩, .optChild ternaries]
  | .structSpecifier =>
    [.token, .optChild [.typeName], .token, .list [.structDeclaration], .token]
  | .structDeclaration =>
    [.child [.fullySpecifiedType], .separated [.quantifiedIdentifier], .token]
  | .quantifiedIdentifier => [.child [.identifier], .list [.arraySpecifier]]
  | .declarationStatement => [.child declarations, .token]
  | .declaratorList => [.child [.fullySpecifiedType], .separated [.declarator]]
  | .declarator =>
    [.child [.identifier], .list [.arraySpecifier], ⟨.optToken, []⟩, .optChild initializers]
  | .precision => [.token, .child [.keyword], .child [.typeSpecifier]]
  | .interfaceBlock =>
    [.list qualifiers, .token, .token, .list [.structDeclaration], .token,
      .optChild [.quantifiedIdentifier]]
  | .qualifierDeclarator => [.list qualifiers, .separated [.identifier]]
  | .functionPrototype => [.child [.functionHeader], .separated [.parameter], .token]
  | .functionHeader => [.child [.fullySpecifiedType], .child [.identifier], .token]
  | .parameter =>
    [.list qualifiers, .child [.typeSpecifier], .optChild [.identifier], .list [.arraySpecifier]]
  | .functionDefinition => [.child [.functionPrototype], .child [.compoundStatement]]
  | .compoundStatement => [.token, .list statements, .token]
  | .expressionStatement => [.optChild expressions, .token]
  | .ifStatement =>
    [.token, .token, .child expressions, .token, .child statements, ⟨.branch, statements⟩]
  | .switchStatement =>
    [.token, .token, .child expressions, .token, .token, .list [.switchCase], .token]
  | .switchCase => [.token, .optChild expressions, .token, .list statements]
  | .whileStatement => [.token, .token, .child conditions, .token, .child statements]
  | .doStatement =>
    [.token, .child statements, .token, .token, .child expressions, .token, .token]
  | .forStatement =>
    [.token, .token, .child [.declarationStatement, .expressionStatement], .optChild conditions,
      .token, .optChild expressions, .token, .child statements]
  | .conditionExpression =>
    [.child [.fullySpecifiedType], .child [.identifier], .token, .child initializers]
  | .returnStatement => [.token, .optChild expressions, .token]
  | .jumpStatement => [.token, .token]

/-- The shapes of a form are the layout of the kind. -/
theorem layout_eq_form (k : Kind) : k.layout = k.form.map Field.shape := by
  cases k <;> rfl

end Kind

/-! ### Nodes that fit -/

/-- The shape of a part. -/
def Part.shape : Part → PartShape
  | .text _ => .text
  | .token _ => .token
  | .optToken _ => .optToken
  | .child _ => .child
  | .optChild _ => .optChild
  | .list _ => .list
  | .separated _ _ => .separated
  | .branch _ _ => .branch

/-- A part fits into a field if it has its shape, holds nodes of its kinds only, and has its
separators in step with its nodes. -/
structure Part.Fits (p : Part) (f : Field) : Prop where
  shape : p.shape = f.shape
  kinds : ∀ n ∈ p.nodes, n.kind ∈ f.kinds
  inStep : p.inStep = true

/-- A node fits if its parts fit into the form of its kind. -/
def Node.Fits (n : Node) : Prop :=
  List.Forall₂ Part.Fits n.parts n.kind.form

/-- A part of a node that fits, fits into the field at its index. -/
theorem Node.Fits.field (h : n.Fits) (i : Nat) (hp : n.parts[i]? = some p)
    (hf : n.kind.form[i]? = some f) : p.Fits f := by
  obtain ⟨hlt, rfl⟩ := List.getElem?_eq_some_iff.mp hp
  obtain ⟨hlt', rfl⟩ := List.getElem?_eq_some_iff.mp hf
  exact Forall₂.get h hlt hlt'

/-- The kind of a node in a field that takes only one kind. -/
theorem Node.Fits.kind_eq {c : Node} (h : n.Fits) (i : Nat) (hp : n.parts[i]? = some p)
    (hf : n.kind.form[i]? = some f) (hk : f.kinds = [k]) (hc : c ∈ p.nodes) : c.kind = k := by
  have hmem := (h.field i hp hf).kinds c hc
  rw [hk] at hmem
  exact mem_singleton.mp hmem

/-- A node and all nodes below it fit. -/
def Node.AllFit (n : Node) : Prop :=
  ∀ m ∈ n.preorder, m.Fits

theorem Node.allFit_iff : n.AllFit ↔ n.Fits ∧ ∀ c ∈ n.children, c.AllFit :=
  all_iff

theorem Node.AllFit.fits (h : n.AllFit) : n.Fits :=
  h n n.mem_preorder_self

theorem Node.AllFit.child {c : Node} (h : n.AllFit) (hc : c ∈ n.children) : c.AllFit :=
  (allFit_iff.mp h).2 c hc

theorem Part.inStep_of_fits (h : List.Forall₂ Part.Fits ps fs) (hp : p ∈ ps) : p.inStep = true := by
  induction h with
  | nil => cases hp
  | cons hfit _ ih =>
    rcases mem_cons.mp hp with rfl | hp
    · exact hfit.inStep
    · exact ih hp

theorem Node.AllFit.inStep (h : n.AllFit) : n.InStep :=
  fun m hm _ hp => inStep_of_fits (h m hm) hp

theorem Node.AllFit.below {m : Node} (h : n.AllFit) (hm : m ∈ n.preorder) : m.AllFit :=
  fun _ hl => h _ (mem_preorder_trans hm hl)

section Fields

variable {p : Part} {ks : List Kind}

/-! What fits into a field of a certain shape. -/

@[simp] theorem Part.fits_token : p.Fits .token ↔ ∃ t, p = .token t := by
  constructor
  · rintro ⟨hshape, -, -⟩
    cases p <;> simp_all [Part.shape, Field.token]
  · rintro ⟨t, rfl⟩
    exact ⟨rfl, by simp [nodes], rfl⟩

@[simp] theorem Part.fits_child : p.Fits (.child ks) ↔ ∃ n, p = .child n ∧ n.kind ∈ ks := by
  constructor
  · rintro ⟨hshape, hkinds, -⟩
    cases p <;> simp_all [Part.shape, nodes, Field.child]
  · rintro ⟨n, rfl, hn⟩
    exact ⟨rfl, by simpa [nodes, Field.child] using hn, rfl⟩

end Fields

/-- The property holds of all lists of parts that fit into the fields. -/
def Part.ForAll : List Field → (List Part → Prop) → Prop
  | [], P => P []
  | ⟨.text, _⟩ :: fs, P => ∀ s, ForAll fs fun ps => P (.text s :: ps)
  | ⟨.token, _⟩ :: fs, P => ∀ t, ForAll fs fun ps => P (.token t :: ps)
  | ⟨.optToken, _⟩ :: fs, P => ∀ t, ForAll fs fun ps => P (.optToken t :: ps)
  | ⟨.child, ks⟩ :: fs, P => ∀ n : Node, n.kind ∈ ks → ForAll fs fun ps => P (.child n :: ps)
  | ⟨.optChild, ks⟩ :: fs, P =>
    ∀ o : Option Node, (∀ n, o = some n → n.kind ∈ ks) → ForAll fs fun ps => P (.optChild o :: ps)
  | ⟨.list, ks⟩ :: fs, P =>
    ∀ ns : List Node, (∀ n ∈ ns, n.kind ∈ ks) → ForAll fs fun ps => P (.list ns :: ps)
  | ⟨.separated, ks⟩ :: fs, P =>
    ∀ (ns : List Node) (ts : List Token), (∀ n ∈ ns, n.kind ∈ ks) →
      ForAll fs fun ps => P (.separated ns ts :: ps)
  | ⟨.branch, ks⟩ :: fs, P =>
    ∀ (t : Option Token) (o : Option Node), (∀ n, o = some n → n.kind ∈ ks) →
      ForAll fs fun ps => P (.branch t o :: ps)

theorem Part.ForAll.of_fits (h : List.Forall₂ Part.Fits ps fs) {P : List Part → Prop}
    (hP : Part.ForAll fs P) : P ps := by
  induction h generalizing P with
  | nil => exact hP
  | @cons p f ps fs hfit _ ih =>
    obtain ⟨shape, ks⟩ := f
    have hshape := hfit.shape
    have hkinds := hfit.kinds
    cases p <;> obtain rfl := hshape
    case text | token | optToken => exact ih (hP _)
    case child n => exact ih (hP n (hkinds n (by simp [nodes])))
    case optChild | list => exact ih (hP _ (by simpa [nodes] using hkinds))
    case separated | branch => exact ih (hP _ _ (by simpa [nodes] using hkinds))

/-- The parts of a node that fits, one by one as the form of its kind has them. -/
@[elab_as_elim]
theorem Node.Fits.kind_cases (h : n.Fits) (hkind : n.kind = k)
    (hparts : ∀ id span, Part.ForAll k.form fun parts => motive (.mk k id span parts)) :
    motive n := by
  obtain ⟨k, id, span, parts⟩ := n
  obtain rfl := hkind
  exact ForAll.of_fits h (hparts id span)

@[elab_as_elim]
theorem Node.AllFit.kind_cases (h : n.AllFit)
    (hkind : n.kind = k)
    (hparts : ∀ id span, Part.ForAll k.form fun parts =>
      (Node.mk k id span parts).AllFit → motive (.mk k id span parts)) : motive n :=
  Node.Fits.kind_cases (motive := fun n => n.AllFit → motive n) h.fits hkind hparts h

/-! ### Phrases that fit -/

/-- The kinds of nodes that a rule yields. -/
def Rule.kinds : Rule → List Kind
  | .functionPrototype => [.functionPrototype]
  | .declaration => Kind.declarations
  | .fullySpecifiedType => [.fullySpecifiedType]
  | .typeSpecifier => [.typeSpecifier]
  | .statement => Kind.statements
  | .expression => Kind.expressions
  | .assignment => Kind.assignments
  | .ternary => Kind.ternaries
  | .binary _ => Kind.binaries
  | .unary => Kind.unaries
  | .postfixExpr => Kind.operands
  | .functionCall => [.functionCall]
  | .primary => [.identifier, .literal, .group]

mutual

/-- The kinds of nodes that a phrase yields. -/
def Phrase.kinds : Phrase → List Kind
  | .node kind _ => [kind]
  | .rule r => r.kinds
  | .initializer => Kind.initializers
  | .orElse first second => first.kinds ++ second.kinds
  | .choose _ _ yes no => yes.kinds ++ no.kinds
  | .refuse _ => []
  | .suffixed first _ suffixes => first.kinds ++ Suffix.kinds suffixes
  | .joined kind item => kind :: item.kinds
termination_by structural p => p

/-- The kinds of nodes that suffixes yield. -/
def Suffix.kinds : List Suffix → List Kind
  | [] => []
  | s :: others => s.ownKinds ++ Suffix.kinds others
termination_by structural ss => ss

/-- The kinds of nodes that a suffix yields. -/
def Suffix.ownKinds : Suffix → List Kind
  | .mk kind _ follow => kind :: Suffix.kinds follow
termination_by structural s => s

end

/-- The fields that are left when a part of the given shape with nodes of the given kinds fills the
first one; none if it does not fit. -/
def Field.fill (shape : PartShape) (kinds : List Kind) : List Field → Option (List Field)
  | [] => none
  | f :: fs => if f.shape = shape ∧ ∀ k ∈ kinds, k ∈ f.kinds then some fs else none

mutual

/-- Whether the nodes that the phrase yields fit. -/
def Phrase.fits : Phrase → Bool
  | .node kind items => Item.fillAll items kind.form = some []
  | .rule _ => true
  | .initializer => true
  | .orElse first second => first.fits && second.fits
  | .choose _ _ yes no => yes.fits && no.fits
  | .refuse _ => true
  | .suffixed first repeated suffixes =>
    first.fits &&
      Suffix.fits (if repeated then first.kinds ++ Suffix.kinds suffixes else first.kinds) suffixes
  | .joined kind item => item.fits && Field.fill .separated item.kinds kind.form = some []

/-- Whether the nodes that suffixes make around nodes of the given kinds fit. -/
def Suffix.fits (heads : List Kind) : List Suffix → Bool
  | [] => true
  | s :: others => s.ownFits heads && Suffix.fits heads others

/-- Whether the nodes that a suffix makes around nodes of the given kinds fit. -/
def Suffix.ownFits (heads : List Kind) : Suffix → Bool
  | .mk kind items follow =>
    (Field.fill .child heads kind.form).bind (Item.fillAll items) = some [] &&
      Suffix.fits [kind] follow

/-- The fields that are left when the items fill the first ones; none if they do not fit. -/
def Item.fillAll : List Item → List Field → Option (List Field)
  | [], fs => some fs
  | item :: items, fs => (item.fill fs).bind (Item.fillAll items)

/-- The fields that are left when the item fills the first ones; none if it does not fit. -/
def Item.fill : Item → List Field → Option (List Field)
  | .token _, fs => Field.fill .token [] fs
  | .presentToken _, fs => Field.fill .optToken [] fs
  | .child p, fs => if p.fits then Field.fill .child p.kinds fs else none
  | .present p, fs | .optional p, fs => if p.fits then Field.fill .optChild p.kinds fs else none
  | .list _ p, fs => if p.fits then Field.fill .list p.kinds fs else none
  | .separated _ p, fs | .single p, fs => if p.fits then Field.fill .separated p.kinds fs else none
  | .branch _ p, fs => if p.fits then Field.fill .branch p.kinds fs else none
  | .empty part, fs =>
    if part.nodes.isEmpty && part.inStep then Field.fill part.shape [] fs else none
  | .choose _ _ yes no, fs =>
    if Item.fillAll yes fs = Item.fillAll no fs then Item.fillAll yes fs else none
  | .forbid _ _, fs => some fs

end

/-- The nodes of a rule fit and have the kinds of the rule. -/
theorem Grammar.production_fits (r : Rule) :
    (production r).fits = true ∧ ∀ k ∈ (production r).kinds, k ∈ r.kinds := by
  cases r with
  | binary level => revert level; decide +kernel
  | _ => decide +kernel

theorem Grammar.initializer_fits :
    initializer.fits = true ∧ ∀ k ∈ initializer.kinds, k ∈ Kind.initializers := by
  decide +kernel

theorem Start.phrase_fits (start : Start) :
    start.phrase.fits = true ∧ ∀ k ∈ start.phrase.kinds, k ∈ Kind.sources := by
  cases start <;> decide +kernel

/-! ### Derivations -/

variable {kinds : List Kind} {left : List Field}

theorem Field.fill_eq_some {shape : PartShape} (h : Field.fill shape kinds fs = some left) :
    ∃ f, fs = f :: left ∧ f.shape = shape ∧ ∀ k ∈ kinds, k ∈ f.kinds := by
  cases fs with
  | nil => cases h
  | cons f fs =>
    simp only [Field.fill, ite_none_right_eq_some, some.injEq] at h
    obtain ⟨⟨hshape, hkinds⟩, rfl⟩ := h
    exact ⟨f, rfl, hshape, hkinds⟩

/-- The parts fill the first of the fields, so that `rest` is left, and their nodes fit. -/
def Part.Fill (ps : List Part) (fs rest : List Field) : Prop :=
  ∃ used, fs = used ++ rest ∧ List.Forall₂ Part.Fits ps used ∧
    ∀ n ∈ ps.flatMap nodes, n.AllFit

theorem Part.Fill.nil (fs : List Field) : Part.Fill [] fs fs :=
  ⟨[], rfl, .nil, by simp⟩

theorem Part.Fill.append {qs : List Part} {mid : List Field} (hps : Part.Fill ps fs mid)
    (hqs : Part.Fill qs mid left) : Part.Fill (ps ++ qs) fs left := by
  obtain ⟨used, rfl, hfits, hall⟩ := hps
  obtain ⟨used', rfl, hfits', hall'⟩ := hqs
  refine ⟨used ++ used', (append_assoc ..).symm, rel_append hfits hfits', ?_⟩
  rw [flatMap_append, forall_mem_append]
  exact ⟨hall, hall'⟩

/-- A part with nodes that fit fills a field of its shape. -/
theorem Part.Fill.single (h : Field.fill p.shape kinds fs = some left)
    (hnodes : ∀ n ∈ p.nodes, n.kind ∈ kinds ∧ n.AllFit) (hstep : p.inStep = true) :
    Part.Fill [p] fs left := by
  obtain ⟨f, rfl, hshape, hkinds⟩ := Field.fill_eq_some h
  refine ⟨[f], rfl, .cons ⟨hshape.symm, fun n hn => hkinds _ (hnodes n hn).1, hstep⟩ .nil, ?_⟩
  rw [flatMap_singleton]
  exact fun n hn => (hnodes n hn).2

/-- A part without nodes fills a field of its shape. -/
theorem Part.Fill.bare (h : Field.fill p.shape [] fs = some left)
    (hnodes : p.nodes = []) (hstep : p.inStep = true) : Part.Fill [p] fs left :=
  Fill.single h (by simp [hnodes]) hstep

/-- A node whose parts fill the form of its kind fits, and so do all nodes below it. -/
theorem Node.allFit_of_fill {kind : Kind} {id : NodeId} (h : Part.Fill ps kind.form []) :
    (Node.mk kind id span ps).AllFit := by
  obtain ⟨used, hform, hfits, hall⟩ := h
  rw [append_nil] at hform
  subst hform
  rw [Node.allFit_iff, Node.children_mk]
  exact ⟨hfits, hall⟩

/-- What a judgement says about the forms of its nodes, if what it is about fits. -/
def Judgement.Fitting : Judgement → Prop
  | .node p n => p.fits = true → n.kind ∈ p.kinds ∧ n.AllFit
  | .suffix ss _ head n =>
    ∀ heads, Suffix.fits heads ss = true → head.kind ∈ heads → head.AllFit →
      n.kind ∈ Suffix.kinds ss ∧ n.AllFit
  | .suffixes ss count _ head n =>
    ∀ heads, Suffix.fits heads ss = true → (1 < count → ∀ k ∈ Suffix.kinds ss, k ∈ heads) →
      head.kind ∈ heads → head.AllFit →
      (n.kind ∈ heads ∨ n.kind ∈ Suffix.kinds ss) ∧ n.AllFit
  | .parts items ps => ∀ fs rest, Item.fillAll items fs = some rest → Part.Fill ps fs rest
  | .item it ps => ∀ fs rest, it.fill fs = some rest → Part.Fill ps fs rest
  | .list p ns => p.fits = true → ∀ n ∈ ns, n.kind ∈ p.kinds ∧ n.AllFit
  | .tail p rest => p.fits = true → ∀ a ∈ rest, a.2.kind ∈ p.kinds ∧ a.2.AllFit

/-- A comma-separated list fills a field for such lists, with a comma after its last node or
without. -/
theorem Part.Fill.separated (last : Option Token)
    (h : Field.fill .separated kinds fs = some left) (hn : n.kind ∈ kinds ∧ n.AllFit)
    (hrest : ∀ a ∈ rest, a.2.kind ∈ kinds ∧ a.2.AllFit) :
    Part.Fill [.separated (n :: rest.map Prod.snd) (rest.map Prod.fst ++ last.toList)] fs left := by
  refine Fill.single h ?_ ?_
  · simp only [Part.nodes, forall_mem_cons, List.forall_mem_map]
    exact ⟨hn, hrest⟩
  · cases last <;> simp [Part.inStep]

theorem Part.Fill.separatedPart (h : Field.fill .separated kinds fs = some left)
    (hn : n.kind ∈ kinds ∧ n.AllFit) (hrest : ∀ a ∈ rest, a.2.kind ∈ kinds ∧ a.2.AllFit) :
    Part.Fill [Parser.separatedPart n rest] fs left := by
  simpa [Parser.separatedPart] using Fill.separated none h hn hrest

/-- A suffix makes a node that fits around one that does. -/
theorem Node.allFit_of_suffix {kind : Kind} {items : List Item} {heads : List Kind} {head : Node}
    {id : NodeId} (h : (Field.fill .child heads kind.form).bind (Item.fillAll items) = some [])
    (hps : ∀ fs rest, Item.fillAll items fs = some rest → Part.Fill ps fs rest)
    (hkind : head.kind ∈ heads) (hhead : head.AllFit) :
    (Node.mk kind id span (.child head :: ps)).AllFit := by
  obtain ⟨fs, hfirst, hitems⟩ := bind_eq_some_iff.mp h
  refine Node.allFit_of_fill ?_
  have hsingle : Part.Fill [.child head] kind.form fs :=
    Fill.single hfirst (by simpa [Part.nodes] using ⟨hkind, hhead⟩) rfl
  exact hsingle.append (hps fs [] hitems)

/-- What is derived from phrases that fit, fits. -/
theorem Derives.fitting {input : Input} {j : Judgement} {i k : Nat} (h : Derives input j i k) :
    j.Fitting := by
  induction h with
  | node _ ih =>
    intro hfits
    exact ⟨mem_singleton.mpr rfl,
      Node.allFit_of_fill (ih _ _ (by simpa [Phrase.fits] using hfits))⟩
  | @rule r n _ _ _ ih =>
    intro _
    obtain ⟨hfits, hkinds⟩ := Grammar.production_fits r
    obtain ⟨hkind, hall⟩ := ih hfits
    exact ⟨hkinds _ hkind, hall⟩
  | initializer _ ih =>
    intro _
    obtain ⟨hfits, hkinds⟩ := Grammar.initializer_fits
    obtain ⟨hkind, hall⟩ := ih hfits
    exact ⟨hkinds _ hkind, hall⟩
  | first _ ih | yes _ ih =>
    intro hfits
    obtain ⟨hkind, hall⟩ := ih (Bool.and_eq_true_iff.mp hfits).1
    exact ⟨mem_append_left _ hkind, hall⟩
  | second _ ih | no _ ih =>
    intro hfits
    obtain ⟨hkind, hall⟩ := ih (Bool.and_eq_true_iff.mp hfits).2
    exact ⟨mem_append_right _ hkind, hall⟩
  | @suffixed p repeated ss count head n _ _ _ hcount _ _ ihhead ih =>
    intro hfits
    rw [Phrase.fits, Bool.and_eq_true] at hfits
    obtain ⟨hkind, hall⟩ := ihhead hfits.1
    cases repeated with
    | true =>
      obtain ⟨hn, hnall⟩ := ih _ hfits.2 (fun _ k hk => mem_append_right _ hk)
        (mem_append_left _ hkind) hall
      refine ⟨?_, hnall⟩
      rcases hn with hn | hn
      · exact hn
      · exact mem_append_right _ hn
    | false =>
      obtain ⟨hn, hnall⟩ := ih _ hfits.2
        (fun hlt => absurd (hcount rfl) (Nat.not_le.mpr hlt)) hkind hall
      exact ⟨mem_append.mpr hn, hnall⟩
  | alone _ ih =>
    intro hfits
    obtain ⟨hkind, hall⟩ := ih (Bool.and_eq_true_iff.mp hfits).1
    exact ⟨mem_cons_of_mem _ hkind, hall⟩
  | joined _ _ _ ihn ihrest =>
    intro hfits
    rw [Phrase.fits, Bool.and_eq_true, decide_eq_true_eq] at hfits
    exact ⟨mem_cons_self,
      Node.allFit_of_fill (.separatedPart hfits.2 (ihn hfits.1) (ihrest hfits.1))⟩
  | suffix _ ih =>
    intro heads hfits hkind hhead
    simp only [Suffix.fits, Suffix.ownFits, Bool.and_eq_true, decide_eq_true_eq] at hfits
    exact ⟨by simp [Suffix.kinds, Suffix.ownKinds, Node.kind],
      Node.allFit_of_suffix hfits.1.1 ih hkind hhead⟩
  | follow _ _ ihparts ih =>
    intro heads hfits hkind hhead
    simp only [Suffix.fits, Suffix.ownFits, Bool.and_eq_true, decide_eq_true_eq] at hfits
    obtain ⟨hn, hall⟩ := ih _ hfits.1.2 (mem_singleton.mpr rfl)
      (Node.allFit_of_suffix hfits.1.1 ihparts hkind hhead)
    exact ⟨by simp [Suffix.kinds, Suffix.ownKinds, hn], hall⟩
  | other _ ih =>
    intro heads hfits hkind hhead
    rw [Suffix.fits, Bool.and_eq_true] at hfits
    obtain ⟨hn, hall⟩ := ih heads hfits.2 hkind hhead
    exact ⟨by simp [Suffix.kinds, hn], hall⟩
  | stop =>
    intro heads _ _ hkind hhead
    exact ⟨.inl hkind, hhead⟩
  | @more ss count start head mid n _ _ _ _ hrest ihmid ih =>
    intro heads hfits hmore hkind hhead
    obtain ⟨hmid, hmidall⟩ := ihmid heads hfits hkind hhead
    cases count with
    | zero =>
      -- With nothing left, the rest of the suffixes is empty.
      cases hrest
      exact ⟨.inr hmid, hmidall⟩
    | succ count =>
      exact ih heads hfits (fun _ => hmore (by omega)) (hmore (by omega) _ hmid) hmidall
  | nil =>
    intro fs rest hfill
    obtain rfl : fs = rest := by simpa [Item.fillAll] using hfill
    exact Fill.nil fs
  | cons _ _ ihitem ih =>
    intro fs rest hfill
    rw [Item.fillAll, bind_eq_some_iff] at hfill
    obtain ⟨mid, hitem, hitems⟩ := hfill
    exact (ihitem fs mid hitem).append (ih mid rest hitems)
  | token _ | presentToken _ =>
    intro fs rest hfill
    exact Fill.bare hfill rfl rfl
  | child _ ih | present _ ih | optional _ ih | single _ ih | branch _ _ ih =>
    intro fs rest hfill
    simp only [Item.fill, ite_none_right_eq_some] at hfill
    exact Fill.single hfill.2 (by simpa [Part.nodes] using ih hfill.1) rfl
  | absent | none _ =>
    intro fs rest hfill
    simp only [Item.fill, ite_none_right_eq_some] at hfill
    exact Fill.single hfill.2 (by simp [Part.nodes]) rfl
  | list _ _ ih =>
    intro fs rest hfill
    simp only [Item.fill, ite_none_right_eq_some] at hfill
    exact Fill.single hfill.2 (ih hfill.1) rfl
  | separated _ _ ihn ihrest =>
    intro fs rest hfill
    simp only [Item.fill, ite_none_right_eq_some] at hfill
    exact .separatedPart hfill.2 (ihn hfill.1) (ihrest hfill.1)
  | trailing _ _ _ ihn ihrest =>
    intro fs rest hfill
    simp only [Item.fill, ite_none_right_eq_some] at hfill
    exact .separated (some _) hfill.2 (ihn hfill.1) (ihrest hfill.1)
  | @empty part =>
    intro fs rest hfill
    simp only [Item.fill, ite_none_right_eq_some, Bool.and_eq_true,
      List.isEmpty_iff] at hfill
    exact Fill.bare hfill.2 hfill.1.1 hfill.1.2
  | itemsYes _ ih =>
    intro fs rest hfill
    simp only [Item.fill, ite_none_right_eq_some] at hfill
    exact ih fs rest hfill.2
  | itemsNo _ ih =>
    intro fs rest hfill
    simp only [Item.fill, ite_none_right_eq_some] at hfill
    exact ih fs rest (hfill.1 ▸ hfill.2)
  | forbid =>
    intro fs rest hfill
    obtain rfl : fs = rest := by simpa [Item.fill] using hfill
    exact Fill.nil fs
  | listNil | tailNil =>
    intro _
    simp
  | listCons _ _ ihn ih | tailCons _ _ _ ihn ih =>
    intro hfits
    rw [forall_mem_cons]
    exact ⟨ihn hfits, ih hfits⟩

/-! ### Trees -/

/-- All nodes of a tree that was read fit. -/
theorem readTree_allFit {start : Start} {input : Input} {source : Option String} {root : Node}
    (h : readTree start input source = .ok root) : root.AllFit := by
  obtain ⟨ns, j, rfl, hns, -⟩ := readTree_sound h
  obtain ⟨hfits, hkinds⟩ := start.phrase_fits
  have hall := hns.fitting hfits
  have htext : Part.Fill [.text input.lexemes.leading] Kind.program.form [.list Kind.sources] :=
    Fill.bare rfl rfl rfl
  have hlist : Part.Fill [.list ns] [.list Kind.sources] [] :=
    Fill.single (by simp [Field.fill, Field.list, Part.shape])
      (fun n hn => ⟨hkinds _ (hall n hn).1, (hall n hn).2⟩) rfl
  exact Node.allFit_of_fill (htext.append hlist)

section Alike

variable {R : Node → Node → Prop}

theorem Part.Alike.fits {q : Part} (h : Part.Alike R p q) (hkind : ∀ n m, R n m → m.kind = n.kind)
    (hp : p.Fits f) : q.Fits f := by
  have hshape : q.shape = p.shape := by cases h <;> rfl
  have hstep : q.inStep = p.inStep := by
    cases h with
    | separated hns => simp [Part.inStep, hns.length_eq]
    | _ => rfl
  refine ⟨hshape.trans hp.shape, fun m hm => ?_, hstep.trans hp.inStep⟩
  obtain ⟨n, hn, hR⟩ := exists_counterpart h.nodes hm
  rw [hkind n m hR]
  exact hp.kinds n hn

/-- Parts that are alike, with nodes of the same kinds, fit into the same fields. -/
theorem Part.fits_of_alike {qs : List Part} (h : List.Forall₂ (Part.Alike R) ps qs)
    (hkind : ∀ n m, R n m → m.kind = n.kind) (hps : List.Forall₂ Part.Fits ps fs) :
    List.Forall₂ Part.Fits qs fs := by
  induction h generalizing fs with
  | nil => exact hps
  | cons hp _ ih =>
    cases hps with
    | cons hfits hrest => exact .cons (hp.fits hkind hfits) (ih hrest)

end Alike

@[simp] theorem Node.kind_mk (k : Kind) (i : NodeId) (s : Option Span) (ps : List Part) :
    (Node.mk k i s ps).kind = k :=
  rfl

theorem Node.kind_number (n : Node) (last : NodeId) : (n.number last).1.kind = n.kind := by
  obtain ⟨k, i, s, ps⟩ := n
  rw [Node.number]
  rfl

theorem Node.Fits.number (h : n.Fits) (last : NodeId) : (n.number last).1.Fits := by
  obtain ⟨k, i, s, ps⟩ := n
  rw [Node.number]
  exact fits_of_alike (Node.number_alike (fun n _ => n.kind_number) _) (fun _ _ hR => hR) h

theorem Node.number_allFit (h : n.AllFit) (last : NodeId) : (n.number last).1.AllFit := by
  intro m hm
  obtain ⟨m', hm', last', rfl⟩ := mem_number hm
  exact (h m' hm').number last'

theorem Node.kind_exchangeCallees (callees : Registry NodeId NodeId) (n : Node) :
    (n.exchangeCallees callees).kind = n.kind := by
  rcases n.exchangeCallees_cases callees with h | ⟨_, _, _, _, _, rfl, -, h⟩
  · rw [h]
    cases n
    rfl
  · rw [h]
    rfl

theorem Node.Fits.exchangeCallees (h : n.Fits) (callees : Registry NodeId NodeId) :
    (n.exchangeCallees callees).Fits := by
  have hparts : ∀ {ps fs}, List.Forall₂ Part.Fits ps fs →
      List.Forall₂ Part.Fits (ps.map (Part.mapNodes (Node.exchangeCallees callees))) fs :=
    fun hps => fits_of_alike
      (mapNodes_alike_all fun n _ => n.kind_exchangeCallees callees) (fun _ _ hR => hR) hps
  rcases n.exchangeCallees_cases callees with heq | ⟨_, _, _, _, _, rfl, -, heq⟩
  · rw [heq]
    obtain ⟨k, i, s, ps⟩ := n
    exact hparts h
  · rw [heq]
    refine .cons ?_ (hparts (forall₂_cons.mp h).2)
    rw [fits_child]
    exact ⟨_, rfl, by simp⟩

theorem Node.exchangeCallees_allFit (h : n.AllFit) (callees : Registry NodeId NodeId) :
    (n.exchangeCallees callees).AllFit := by
  intro m hm
  rcases Node.mem_exchangeCallees callees hm with ⟨m', hm', rfl⟩ | ⟨_, _, _, t, -, rfl⟩
  · exact (h m' hm').exchangeCallees callees
  · exact .cons (fits_token.mpr ⟨t, rfl⟩) .nil

end ShaderSource
