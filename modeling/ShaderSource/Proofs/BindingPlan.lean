import ShaderSource.Proofs.Form

/-!
# The plan of a node

What is done at a node when its names are bound, kind by kind: which of the nodes below are gone
through and in which order, which leaves declare names, where scopes open and end. The plan of a
kind is a table that can be checked by looking at all kinds. The occurrences of a node that fits
are what its plan says, so facts about all occurrences of a tree come from the table and one
induction.

Nodes below a node are named by the parts that lead to them. Most parts are of the node itself.
A function is registered before its parameters are gone through, and the prototype of a definition
says nothing for itself, so the plan of a definition reaches into its prototype. An interface block
without a name for its instance goes through the members once more, as variables.

## Main results

* `Node.AllFit.occurrences_eq`: the occurrences of a node are those of its plan.
-/

namespace ShaderSource

open List Node Occurrence ShaderSource.Part

/-- A property that passes from all nodes below to the node holds of all nodes. -/
theorem Node.strongInduction {P : Node → Prop}
    (h : ∀ n, (∀ c ∈ n.children, ∀ m ∈ c.preorder, P m) → P n) (n : Node) : P n := by
  have hall : ∀ m ∈ n.preorder, P m := by
    induction n using induction with
    | h n ih =>
      intro m hm
      rcases mem_preorder_iff.mp hm with rfl | ⟨c, hc, hmc⟩
      · exact h m ih
      · exact ih c hc m hmc
  exact hall n n.mem_preorder_self

/-! ### Nodes by their places -/

/-- The nodes in a part of the node. -/
def Node.field (i : Nat) (n : Node) : List Node :=
  ((n.parts[i]?).map nodes).getD []

@[simp] theorem Node.field_mk (i : Nat) (k : Kind) (id : NodeId) (span : Option Span)
    (parts : List Part) :
    (Node.mk k id span parts).field i = ((parts[i]?).map nodes).getD [] :=
  rfl

/-- The nodes that one comes to through the given parts, one below the other. -/
def Node.along : List Nat → Node → List Node
  | [], n => [n]
  | i :: path, n => (n.field i).flatMap (along path)

/-- The text of a leaf. -/
def Node.text (n : Node) : String :=
  (n.leaf?.map Token.text).getD ""

/-- A call whose callee is a type specifier with nothing but a name in it. -/
def Node.isPlainCall (n : Node) : Bool :=
  n.kind == .functionCall && (n.field 0).map Node.kind == [.typeSpecifier] &&
    (n.along [0, 0]).map Node.kind == [.typeName] && (n.along [0, 1]).isEmpty

/-- An interface block without a name for its instance, whose members are variables. -/
def Node.isOpenBlock (n : Node) : Bool :=
  n.kind == .interfaceBlock && (n.field 5).isEmpty

/-! ### Plans -/

/-- Something that is done at a node. -/
inductive Move where
  /-- Nodes below are gone through. -/
  | visit (path : List Nat) (role : Role)
  /-- Leaves below declare names. -/
  | declare (c : NameClass) (path : List Nat)
  /-- The node, a leaf, uses a name. -/
  | use (c : NameClass)
  /-- The node calls a name. -/
  | call
  /-- The node declares or defines the function of the prototype below, and opens its scope. -/
  | function (prototype : List Nat)
  /-- A scope opens. -/
  | enter (name : String)
  /-- A scope ends. -/
  | leave
  deriving DecidableEq, Repr

/-- What is done at a node of the kind, calls and interface blocks without instances apart. -/
def Kind.plan (role : Role) : Kind → List Move
  | .identifier => [.use .var]
  | .typeName => [.use .type]
  | .functionDefinition =>
    [.visit [0, 0, 0] .plain, .function [0], .visit [0, 1] .plain, .visit [1] .body, .leave]
  | .functionPrototype => [.visit [0, 0] .plain, .function [], .visit [1] .plain, .leave]
  | .parameter => [.visit [0] .plain, .visit [1] .plain, .visit [3] .plain, .declare .var [2]]
  | .declarator => [.visit [1] .plain, .visit [3] .plain, .declare .var [0]]
  | .structSpecifier => [.visit [3] .plain, .declare .type [1]]
  | .structDeclaration => [.visit [0] .plain, .visit [1] .member]
  | .quantifiedIdentifier =>
    if role = .member then [.visit [1] .plain] else [.visit [1] .plain, .declare .var [0]]
  | .conditionExpression => [.visit [0] .plain, .visit [3] .plain, .declare .var [1]]
  | .compoundStatement =>
    if role = .body then [.visit [1] .plain]
    else [.enter "compound statement", .visit [1] .plain, .leave]
  | .whileStatement => [.enter "while", .visit [2] .plain, .visit [4] .body, .leave]
  | .doStatement => [.enter "do", .visit [1] .body, .leave, .visit [4] .plain]
  | .forStatement =>
    [.enter "for", .visit [2] .plain, .visit [3] .plain, .visit [5] .plain, .visit [7] .body,
      .leave]
  | .switchStatement => [.visit [2] .plain, .enter "switch", .visit [5] .plain, .leave]
  | kind => (List.range kind.form.length).map fun i => .visit [i] .plain

/-- What is done at a node. -/
def Node.plan (role : Role) (n : Node) : List Move :=
  if n.isPlainCall then [.call, .visit [2] .plain]
  else if n.isOpenBlock then [.visit [0] .plain, .visit [3] .plain, .visit [3, 1] .plain]
  else n.kind.plan role

/-- The occurrence of a declaration. -/
def NameClass.declares : NameClass → String → Site → Occurrence
  | .var => .declareVariable
  | .type => .declareType

/-- The occurrence of a use. -/
def NameClass.uses : NameClass → String → Site → Occurrence
  | .var => .useVariable
  | .type => .useType

/-- The occurrence of a function by its node: its definition, or else a prototype. -/
def Node.functionOccurrence (n : Node) (name : String) (signature : Signature) : Occurrence :=
  if n.kind = .functionDefinition then .defineFunction name signature n.site
  else .declareFunction name signature n.site

/-- The name in a prototype. -/
def Node.prototypeName (prototype : Node) : String :=
  ((prototype.along [0, 1]).map Node.text).headD ""

/-- The signature of a prototype. -/
def Node.prototypeSignature (prototype : Node) : Signature :=
  ((prototype.along [0, 0]).map fun result =>
    (ShaderSource.prototypeSignature result (prototype.field 1)).toOption.getD
      default).headD default

/-- The occurrences that a move makes. -/
def Node.perform (n : Node) : Move → List Occurrence
  | .visit path role => (n.along path).flatMap (Node.occurrences role)
  | .declare c path => (n.along path).map fun m => c.declares m.text m.site
  | .use c => [c.uses n.text n.site]
  | .call =>
    (n.field 0).flatMap fun callee => (callee.field 0).map fun name =>
      .call name.text ⟨name.id, callee.span⟩ (argumentCount (n.field 2)) n.site
  | .function path =>
    (n.along path).flatMap fun prototype =>
      [n.functionOccurrence prototype.prototypeName prototype.prototypeSignature,
        .enter prototype.prototypeName n.span]
  | .enter name => [.enter name n.span]
  | .leave => [.leave]

section Fields

variable {n c : Node}

theorem Node.mem_children_iff : c ∈ n.children ↔ ∃ i, c ∈ n.field i := by
  obtain ⟨k, id, span, parts⟩ := n
  rw [children_mk, mem_flatMap]
  constructor
  · rintro ⟨p, hp, hc⟩
    obtain ⟨i, hi⟩ := mem_iff_getElem?.mp hp
    exact ⟨i, by simpa [hi] using hc⟩
  · rintro ⟨i, hc⟩
    cases hi : parts[i]? with
    | none => simp [hi] at hc
    | some p =>
      refine ⟨p, mem_of_getElem? hi, ?_⟩
      simpa [hi] using hc

/-- What is below a node in the order of its parts. -/
theorem Node.flatMap_children {α : Type} (f : Node → List α) (n : Node) :
    n.children.flatMap f =
      (List.range n.parts.length).flatMap fun i => (n.field i).flatMap f := by
  obtain ⟨k, id, span, parts⟩ := n
  have hrange : ∀ ps : List Part, ps.flatMap (fun p => p.nodes.flatMap f) =
      (List.range ps.length).flatMap fun i => ((ps[i]?.map nodes).getD []).flatMap f := by
    intro ps
    induction ps with
    | nil => rfl
    | cons p ps ih =>
      rw [length_cons, range_succ_eq_map, flatMap_cons, flatMap_cons,
        flatMap_map, ih]
      simp
  rw [children_mk, flatMap_assoc]
  exact hrange parts

end Fields

theorem Node.occurrencesAll_none (role : Role) (ns : List Node) :
    Node.occurrencesAll role none ns = ns.flatMap (Node.occurrences role) := by
  induction ns with
  | nil => rw [Node.occurrencesAll]; rfl
  | cons n ns ih => rw [Node.occurrencesAll, ih]; rfl

theorem Node.occurrencesAll_some (role : Role) {kind : Kind} {ns : List Node}
    (h : ∀ n ∈ ns, n.kind = kind) :
    Node.occurrencesAll role (some kind) ns = ns.flatMap (Node.occurrences role) := by
  induction ns with
  | nil => rw [Node.occurrencesAll]; rfl
  | cons n ns ih =>
    rw [Node.occurrencesAll, ih fun m hm => h m (mem_cons_of_mem _ hm),
      if_pos (by simp [h n mem_cons_self])]
    rfl

theorem Part.occurrences_eq (p : Part) :
    p.occurrences = p.nodes.flatMap (Node.occurrences .plain) := by
  cases p with
  | text | token | optToken => rw [Part.occurrences]; rfl
  | child n => rw [Part.occurrences]; simp [nodes]
  | optChild n | branch _ n => cases n <;> rw [Part.occurrences] <;> simp [nodes]
  | list | separated => rw [Part.occurrences, occurrencesAll_none]; rfl

theorem Part.occurrencesAll_eq (ps : List Part) :
    Part.occurrencesAll ps = (ps.flatMap nodes).flatMap (Node.occurrences .plain) := by
  induction ps with
  | nil => rw [Part.occurrencesAll]; rfl
  | cons p ps ih =>
    rw [Part.occurrencesAll, ih, occurrences_eq, flatMap_cons, flatMap_append]

/-- Whether a node of the kind is gone through part by part, whatever it is made of. -/
def Kind.isUniform : Kind → Bool
  | .identifier | .typeName | .functionCall | .functionDefinition | .functionPrototype
  | .parameter | .declaratorList | .declarator | .structSpecifier | .structDeclaration
  | .quantifiedIdentifier | .interfaceBlock | .conditionExpression | .compoundStatement
  | .whileStatement | .doStatement | .forStatement | .switchStatement => false
  | _ => true

theorem Node.occurrences_of_uniform {n : Node} (h : n.kind.isUniform = true) (role : Role) :
    n.occurrences role = n.children.flatMap (Node.occurrences .plain) := by
  obtain ⟨k, id, span, parts⟩ := n
  rw [children_mk, ← occurrencesAll_eq]
  rw [kind_mk] at h
  cases k <;> first | exact absurd h (by decide) | rfl

theorem Kind.plan_of_uniform {k : Kind} (h : k.isUniform = true) (role : Role) :
    k.plan role = (List.range k.form.length).map fun i => .visit [i] .plain := by
  cases k <;> first | exact absurd h (by decide) | rfl

/-- The parts of a node are as many as its form has. -/
theorem Node.Fits.length_parts {n : Node} (h : n.Fits) : n.parts.length = n.kind.form.length :=
  Forall₂.length_eq h

theorem Node.plan_of_kind {n : Node} (hcall : n.kind ≠ .functionCall)
    (hblock : n.kind ≠ .interfaceBlock) (role : Role) : n.plan role = n.kind.plan role := by
  simp [plan, isPlainCall, isOpenBlock, hcall, hblock]

/-- A node whose parts are all gone through, one after the other. -/
theorem Node.Fits.occurrences_uniform {n : Node} (h : n.Fits) {role : Role}
    (hplan : n.plan role = (List.range n.kind.form.length).map fun i => .visit [i] .plain)
    (hocc : n.occurrences role = n.children.flatMap (Node.occurrences .plain)) :
    n.occurrences role = (n.plan role).flatMap n.perform := by
  rw [hocc, hplan, flatMap_children, h.length_parts, flatMap_map]
  simp [perform, along]

/-- The kind of the leaves that carry names of a class. -/
def NameClass.leafKind : NameClass → Kind
  | .var => .identifier
  | .type => .typeName

theorem NameClass.form_leafKind (c : NameClass) : c.leafKind.form = [.token] := by
  cases c <;> rfl

theorem Node.Fits.leaf_parts {k : Kind} {id : NodeId} {span : Option Span} {parts : List Part}
    (h : (Node.mk k id span parts).Fits) (hform : k.form = [.token]) :
    ∃ t, parts = [.token t] := by
  have hparts : List.Forall₂ Part.Fits parts k.form := h
  rw [hform] at hparts
  simp only [forall₂_cons_right_iff, forall₂_nil_right_iff, fits_token] at hparts
  obtain ⟨_, _, ⟨t, rfl⟩, rfl, rfl⟩ := hparts
  exact ⟨t, rfl⟩

theorem Node.Fits.declares_eq {m : Node} (h : m.Fits) {c : NameClass}
    (hkind : m.kind = c.leafKind) : m.declares c.declares = c.declares m.text m.site := by
  obtain ⟨k, id, span, parts⟩ := m
  obtain rfl : k = c.leafKind := hkind
  obtain ⟨t, rfl⟩ := h.leaf_parts c.form_leafKind
  cases c <;> rfl

/-- The members of an open block, as variables. -/
theorem Node.memberVariables_eq {ns : List Node}
    (h : ∀ n ∈ ns, n.AllFit ∧ n.kind = .structDeclaration) :
    memberVariables ns =
      (ns.flatMap (field 1)).flatMap (Node.occurrences .plain) := by
  induction ns with
  | nil => rw [memberVariables]; rfl
  | cons n ns ih =>
    obtain ⟨hfit, hkind⟩ := h n mem_cons_self
    refine hfit.kind_cases hkind fun id span type _ members ts hmembers t _ => ?_
    rw [memberVariables, ih fun m hm => h m (mem_cons_of_mem _ hm),
      occurrencesAll_some .plain fun m hm => by simpa using hmembers m hm]
    simp [nodes]

/-- The header of a prototype. -/
abbrev headerNode (id : NodeId) (span : Option Span) (result name : Node) (t : Token) : Node :=
  .mk .functionHeader id span [.child result, .child name, .token t]

/-- A prototype of the form that is spoken of. -/
abbrev prototypeNode (id : NodeId) (span : Option Span) (header : Node) (parameters : List Node)
    (separators : List Token) (t : Token) : Node :=
  .mk .functionPrototype id span [.child header, .separated parameters separators, .token t]

section Kinds

variable {n m : Node}

/-- The kind of a node in a part is one that the field there takes. -/
theorem Node.Fits.kind_mem_field (h : n.Fits) {i : Nat} (hm : m ∈ n.field i) :
    m.kind ∈ ((n.kind.form[i]?).map Field.kinds).getD [] := by
  obtain ⟨k, id, span, parts⟩ := n
  cases hp : parts[i]? with
  | none => simp [hp] at hm
  | some p =>
    have hm' : m ∈ p.nodes := by simpa [field, Node.parts, hp] using hm
    have hlt : i < k.form.length := by
      have hlength := Forall₂.length_eq h
      have hi := (List.getElem?_eq_some_iff.mp hp).1
      exact hlength ▸ hi
    rw [kind_mk, getElem?_eq_getElem hlt]
    exact (h.field i hp (getElem?_eq_getElem hlt)).kinds m hm'

/-- What is right below a node is of a kind that one of the fields takes. -/
theorem Node.Fits.kind_mem (h : n.Fits) (hm : m ∈ n.children) :
    ∃ f ∈ n.kind.form, m.kind ∈ f.kinds := by
  obtain ⟨i, hi⟩ := mem_children_iff.mp hm
  have hkind := h.kind_mem_field hi
  cases hf : n.kind.form[i]? with
  | none => simp [hf] at hkind
  | some f => exact ⟨f, mem_of_getElem? hf, by simpa [hf] using hkind⟩

/-- The leaves in a part that takes names only declare them. -/
theorem Node.AllFit.declares_field (h : n.AllFit) {c : NameClass} {i : Nat}
    (hform : ((n.kind.form[i]?).map Field.kinds).getD [] = [c.leafKind]) (hm : m ∈ n.field i) :
    m.declares c.declares = c.declares m.text m.site := by
  have hkind := h.fits.kind_mem_field hm
  rw [hform] at hkind
  exact (h.child (mem_children_iff.mpr ⟨i, hm⟩)).fits.declares_eq (mem_singleton.mp hkind)

theorem Node.AllFit.parameterType_ok (h : n.AllFit) (hkind : n.kind = .parameter) :
    ∃ type, n.parameterType = .ok type :=
  h.kind_cases hkind fun _ _ _ _ _ _ _ _ _ _ _ => ⟨_, rfl⟩

/-- Parameters have a signature. -/
theorem prototypeSignature_ok (result : Node) {parameters : List Node}
    (h : ∀ m ∈ parameters, m.AllFit ∧ m.kind = .parameter) :
    ∃ signature, prototypeSignature result parameters = .ok signature := by
  have htypes : ∃ types, parameters.mapM parameterType = .ok types := by
    induction parameters with
    | nil => exact ⟨[], rfl⟩
    | cons m ms ih =>
      obtain ⟨hfit, hkind⟩ := h m mem_cons_self
      obtain ⟨type, htype⟩ := hfit.parameterType_ok hkind
      obtain ⟨types, htypes⟩ := ih fun m' hm' => h m' (mem_cons_of_mem _ hm')
      exact ⟨type :: types, by rw [mapM_cons, htype, htypes]; rfl⟩
  obtain ⟨types, htypes⟩ := htypes
  exact ⟨_, by rw [prototypeSignature, htypes]; rfl⟩

/-- A prototype is made of a header and parameters. -/
theorem Node.AllFit.prototype_eq (h : n.AllFit) (hkind : n.kind = .functionPrototype) :
    ∃ id' span' result name t parameters ts t',
      n = prototypeNode n.id n.span (headerNode id' span' result name t) parameters ts t' ∧
      ∀ make span, prototypeOccurrences make span result name parameters =
        [make n.prototypeName n.prototypeSignature, .enter n.prototypeName span] := by
  refine h.kind_cases hkind fun id span header hheader parameters ts hparameters t' h => ?_
  have hheaderFit : header.AllFit := h.child (by simp [nodes])
  have hparameterFit : ∀ m ∈ parameters, m.AllFit ∧ m.kind = .parameter := fun m hm =>
    ⟨h.child (by simp [nodes, hm]), mem_singleton.mp (hparameters m hm)⟩
  clear h
  refine hheaderFit.kind_cases (mem_singleton.mp hheader)
    fun id' span' result _ name hname t hheaderFit => ?_
  refine ⟨id', span', result, name, t, parameters, ts, t', rfl, fun make s => ?_⟩
  obtain ⟨signature, hsignature⟩ := prototypeSignature_ok result hparameterFit
  have hname' : name.declaredName? = some name.text := by
    have hleaf : name.AllFit := hheaderFit.child (by simp [nodes])
    have hdeclares := hleaf.fits.declares_eq (c := .var) (mem_singleton.mp hname)
    unfold declares at hdeclares
    split at hdeclares
    · rename_i text htext
      injection hdeclares with htext' _
      rw [htext, htext']
    · cases hdeclares
  rw [prototypeOccurrences, hname', hsignature]
  simp [prototypeName, Node.prototypeSignature, along, nodes,
    hsignature, Except.toOption]

end Kinds

/-! ### Occurrences as planned -/

/-- The occurrences of the node are those that its plan makes. -/
def Node.Planned (role : Role) (n : Node) : Prop :=
  n.occurrences role = (n.plan role).flatMap n.perform

section Planned

variable {n : Node} {role : Role}

attribute [local simp] Kind.plan perform along nodes Node.span occurrencesAll_none
  NameClass.declares

theorem Node.planned_of_kind (hcall : n.kind ≠ .functionCall) (hblock : n.kind ≠ .interfaceBlock)
    (h : n.occurrences role = (n.kind.plan role).flatMap n.perform) : n.Planned role := by
  rw [Node.Planned, plan_of_kind hcall hblock, h]

namespace Node.AllFit

variable (h : n.AllFit)

include h

theorem planned_leaf {c : NameClass} (hkind : n.kind = c.leafKind) : n.Planned role := by
  obtain ⟨k, id, span, parts⟩ := n
  obtain rfl : k = c.leafKind := hkind
  obtain ⟨t, rfl⟩ := h.fits.leaf_parts c.form_leafKind
  cases c <;> rfl

/-! Declarations of variables -/

theorem planned_parameter (hkind : n.kind = .parameter) : n.Planned role := by
  refine h.kind_cases hkind fun _ _ _ _ _ _ name _ _ _ h =>
    planned_of_kind (by simp) (by simp) ?_
  change Node.occurrencesAll .plain none _ ++ Node.occurrences .plain _ ++
    Node.occurrencesAll .plain none _ ++ (name.map fun n => n.declares .declareVariable).toList = _
  cases name with
  | none => simp
  | some m =>
    have hdeclares := h.declares_field (c := .var) (i := 2) rfl
      (show m ∈ _ by simp)
    simp at hdeclares ⊢
    exact hdeclares

theorem planned_declaratorList (hkind : n.kind = .declaratorList) : n.Planned role := by
  refine h.kind_cases hkind fun _ _ _ _ _ _ hkinds _ => planned_of_kind (by simp) (by simp) ?_
  change Node.occurrences .plain _ ++ Node.occurrencesAll .plain (some .declarator) _ = _
  rw [occurrencesAll_some .plain fun m hm => mem_singleton.mp (hkinds m hm)]
  simp [Kind.form, range_succ]

theorem planned_declarator (hkind : n.kind = .declarator) : n.Planned role := by
  refine h.kind_cases hkind fun _ _ name _ _ _ _ value _ h =>
    planned_of_kind (by simp) (by simp) ?_
  have hdeclares : name.declares .declareVariable = .declareVariable name.text name.site :=
    h.declares_field (c := .var) (i := 0) rfl (by simp)
  cases value with
  | none =>
    change Node.occurrencesAll .plain none _ ++ [name.declares .declareVariable] = _
    simp [hdeclares]
  | some value =>
    change Node.occurrencesAll .plain none _ ++ value.occurrences .plain ++
      [name.declares .declareVariable] = _
    simp [hdeclares]

theorem planned_conditionExpression (hkind : n.kind = .conditionExpression) : n.Planned role := by
  refine h.kind_cases hkind fun _ _ _ _ name _ _ _ _ h =>
    planned_of_kind (by simp) (by simp) ?_
  have hdeclares : name.declares .declareVariable = .declareVariable name.text name.site :=
    h.declares_field (c := .var) (i := 1) rfl (by simp)
  change Node.occurrences .plain _ ++ Node.occurrences .plain _ ++
    [name.declares .declareVariable] = _
  simp [hdeclares]

theorem planned_quantifiedIdentifier (hkind : n.kind = .quantifiedIdentifier) : n.Planned role := by
  refine h.kind_cases hkind fun _ _ name _ _ _ h => planned_of_kind (by simp) (by simp) ?_
  have hdeclares : name.declares .declareVariable = .declareVariable name.text name.site :=
    h.declares_field (c := .var) (i := 0) rfl (by simp)
  change Node.occurrencesAll .plain none _ ++
    (if role = .member then [] else [name.declares .declareVariable]) = _
  by_cases hrole : role = .member <;>
    simp [hrole, hdeclares]

/-! Structures and blocks -/

theorem planned_structSpecifier (hkind : n.kind = .structSpecifier) : n.Planned role := by
  refine h.kind_cases hkind fun _ _ _ name _ _ _ hkinds _ h =>
    planned_of_kind (by simp) (by simp) ?_
  change Node.occurrencesAll .plain (some .structDeclaration) _ ++
    (name.map fun n => n.declares .declareType).toList = _
  rw [occurrencesAll_some .plain fun m hm => mem_singleton.mp (hkinds m hm)]
  cases name with
  | none => simp
  | some m =>
    have hdeclares := h.declares_field (c := .type) (i := 1) rfl
      (show m ∈ _ by simp)
    simp at hdeclares ⊢
    exact hdeclares

theorem planned_structDeclaration (hkind : n.kind = .structDeclaration) : n.Planned role := by
  refine h.kind_cases hkind fun _ _ _ _ _ _ _ _ _ => planned_of_kind (by simp) (by simp) ?_
  change Node.occurrences .plain _ ++ Node.occurrencesAll .member none _ = _
  simp

theorem planned_interfaceBlock (hkind : n.kind = .interfaceBlock) : n.Planned role := by
  refine h.kind_cases hkind fun _ _ _ _ _ _ members hkinds _ block hblock h => ?_
  have hmembers : ∀ m ∈ members, m.AllFit ∧ m.kind = .structDeclaration := fun m hm =>
    ⟨h.child (by simp [hm]), mem_singleton.mp (hkinds m hm)⟩
  rw [Node.Planned]
  cases block with
  | none =>
    change Node.occurrencesAll .plain none _ ++
      Node.occurrencesAll .plain (some .structDeclaration) _ ++ memberVariables _ = _
    rw [memberVariables_eq hmembers,
      occurrencesAll_some .plain fun m hm => (hmembers m hm).2, occurrencesAll_none]
    simp [plan, isPlainCall, isOpenBlock]
  | some block =>
    change Node.occurrencesAll .plain none _ ++
      Node.occurrencesAll .plain (some .structDeclaration) _ ++
      (if block.kind = .quantifiedIdentifier then block.occurrences .plain
        else [.malformed block.kind]) = _
    rw [occurrencesAll_some .plain fun m hm => (hmembers m hm).2, occurrencesAll_none,
      if_pos (mem_singleton.mp (hblock block rfl))]
    simp [plan, isPlainCall, isOpenBlock, Kind.form, range_succ]

/-! Functions -/

theorem planned_functionPrototype (hkind : n.kind = .functionPrototype) : n.Planned role := by
  obtain ⟨id, span, result, name, t, parameters, ts, t', heq, hocc⟩ := h.prototype_eq hkind
  rw [heq] at hocc ⊢
  refine planned_of_kind (by simp) (by simp) ?_
  change _ ++ prototypeOccurrences _ _ _ _ _ ++ _ ++ [leave] = _
  rw [hocc]
  simp [functionOccurrence, site, Node.id]

theorem planned_functionDefinition (hkind : n.kind = .functionDefinition) : n.Planned role := by
  refine h.kind_cases hkind fun _ _ prototype hprototype _ _ h =>
    planned_of_kind (by simp) (by simp) ?_
  have hfit : prototype.AllFit := h.child (by simp)
  obtain ⟨id, span, result, name, t, parameters, ts, t', heq, hocc⟩ :=
    hfit.prototype_eq (mem_singleton.mp hprototype)
  rw [heq] at hocc ⊢
  change _ ++ prototypeOccurrences _ _ _ _ _ ++ _ ++ Node.occurrences .body _ ++
    [leave] = _
  rw [hocc]
  simp [functionOccurrence, site, Node.id]

/-- A plain call has a plain callee. -/
theorem plainCall_eq (hplain : n.isPlainCall = true) :
    ∃ (callee : PlainCallee) (t' : Token) (arguments : List Node) (ts : List Token) (t'' : Token),
      n = .mk .functionCall n.id n.span
        [.child callee.node, .token t', .separated arguments ts, .token t''] := by
  simp only [isPlainCall, Bool.and_eq_true, beq_iff_eq] at hplain
  obtain ⟨⟨⟨hkind, hspecifier⟩, hname⟩, hdimensions⟩ := hplain
  revert hdimensions hname hspecifier
  refine h.kind_cases hkind
    fun _ _ callee _ t' arguments ts _ t'' h hdimensions hname hspecifier => ?_
  have hcallee : callee.AllFit := h.child (by simp)
  have hkind' : callee.kind = .typeSpecifier := by simpa [nodes] using hspecifier
  clear h hspecifier
  revert hdimensions hname
  refine hcallee.kind_cases hkind'
    fun callee calleeSpan name _ dimensions _ hcallee hdimensions hname => ?_
  obtain rfl : dimensions = [] := by simpa [along, nodes] using hdimensions
  have hleaf : name.AllFit := hcallee.child (by simp)
  have hkind'' : name.kind = .typeName := by simpa [along, nodes] using hname
  clear hcallee hname hdimensions
  exact hleaf.kind_cases hkind'' fun name nameSpan t _ =>
    ⟨⟨callee, calleeSpan, name, nameSpan, t⟩, t', arguments, ts, t'', rfl⟩

/-- The callee of any other call is gone through like its arguments. -/
theorem occurrences_call (hkind : n.kind = .functionCall)
    (hplain : ¬n.isPlainCall = true) (role : Role) :
    n.occurrences role = n.children.flatMap (Node.occurrences .plain) := by
  revert hplain
  refine h.kind_cases hkind fun _ _ callee hcallee t' arguments ts _ t'' h hplain => ?_
  rw [children_mk, ← occurrencesAll_eq]
  have hfit : callee.AllFit := h.child (by simp)
  obtain ⟨k, callee, calleeSpan, parts⟩ := callee
  rw [kind_mk] at hcallee
  simp only [mem_cons, not_mem_nil, or_false] at hcallee
  rcases hcallee with rfl | rfl | rfl
  · -- A type specifier is a plain callee unless it has dimensions or more than a name.
    clear h
    revert hplain
    refine hfit.kind_cases rfl fun _ _ name hname dimensions _ hfit hplain => ?_
    have hleaf : name.AllFit := hfit.child (by simp)
    obtain ⟨k, name, nameSpan, parts⟩ := name
    simp only [kind_mk, Kind.types, mem_cons, not_mem_nil, or_false] at hname
    rcases hname with rfl | rfl | rfl
    · rfl
    · obtain ⟨t, rfl⟩ := hleaf.fits.leaf_parts rfl
      cases dimensions with
      | nil => exact absurd rfl hplain
      | cons d ds => rfl
    · rfl
  · rfl
  · rfl

theorem planned_functionCall (hkind : n.kind = .functionCall) : n.Planned role := by
  by_cases hplain : n.isPlainCall = true
  · obtain ⟨callee, t', arguments, ts, t'', heq⟩ := h.plainCall_eq hplain
    rw [heq] at hplain ⊢
    rw [Node.Planned, plan, if_pos hplain, PlainCallee.node]
    change .call _ _ _ _ :: Node.occurrencesAll .plain none _ = _
    simp [Node.text, leaf?, site, Node.id]
  · refine h.fits.occurrences_uniform ?_ (h.occurrences_call hkind hplain role)
    rw [plan, if_neg hplain, if_neg (by simp [isOpenBlock, hkind]), hkind]
    rfl

/-! Statements with scopes -/

theorem planned_compoundStatement (hkind : n.kind = .compoundStatement) : n.Planned role := by
  refine h.kind_cases hkind fun _ _ _ _ _ _ _ => planned_of_kind (by simp) (by simp) ?_
  change (if role = .body then Node.occurrencesAll .plain none _
    else enter "compound statement" _ :: Node.occurrencesAll .plain none _ ++
      [leave]) = _
  by_cases hrole : role = .body <;>
    simp [hrole]

theorem planned_whileStatement (hkind : n.kind = .whileStatement) : n.Planned role := by
  refine h.kind_cases hkind fun _ _ _ _ _ _ _ _ _ _ => planned_of_kind (by simp) (by simp) ?_
  change enter "while" _ :: Node.occurrences .plain _ ++ Node.occurrences .body _ ++
    [leave] = _
  simp

theorem planned_doStatement (hkind : n.kind = .doStatement) : n.Planned role := by
  refine h.kind_cases hkind fun _ _ _ _ _ _ _ _ _ _ _ _ =>
    planned_of_kind (by simp) (by simp) ?_
  change enter "do" _ :: Node.occurrences .body _ ++ [leave] ++
    Node.occurrences .plain _ = _
  simp

theorem planned_forStatement (hkind : n.kind = .forStatement) : n.Planned role := by
  refine h.kind_cases hkind fun _ _ _ _ _ _ _ _ _ _ _ _ _ _ _ =>
    planned_of_kind (by simp) (by simp) ?_
  change enter "for" _ :: Node.occurrences .plain _ ++ Part.occurrences _ ++
    Part.occurrences _ ++ Node.occurrences .body _ ++ [leave] = _
  rw [occurrences_eq, occurrences_eq]
  simp

theorem planned_switchStatement (hkind : n.kind = .switchStatement) : n.Planned role := by
  refine h.kind_cases hkind fun _ _ _ _ _ _ _ _ _ _ _ _ =>
    planned_of_kind (by simp) (by simp) ?_
  change Node.occurrences .plain _ ++ enter "switch" _ ::
    Node.occurrencesAll .plain none _ ++ [leave] = _
  simp

end Node.AllFit

theorem Node.planned_uniform (h : n.Fits) (huniform : n.kind.isUniform = true) :
    n.Planned role := by
  refine h.occurrences_uniform ?_ (occurrences_of_uniform huniform role)
  rw [plan_of_kind, Kind.plan_of_uniform huniform]
  all_goals
    intro hkind
    rw [hkind] at huniform
    cases huniform

/-- **The occurrences of a node that fits are those of its plan.** -/
theorem Node.AllFit.occurrences_eq (h : n.AllFit) (role : Role) :
    n.occurrences role = (n.plan role).flatMap n.perform := by
  by_cases huniform : n.kind.isUniform = true
  · exact planned_uniform h.fits huniform
  cases hkind : n.kind
  case identifier => exact h.planned_leaf (c := .var) hkind
  case typeName => exact h.planned_leaf (c := .type) hkind
  case functionCall => exact h.planned_functionCall hkind
  case functionDefinition => exact h.planned_functionDefinition hkind
  case functionPrototype => exact h.planned_functionPrototype hkind
  case parameter => exact h.planned_parameter hkind
  case declaratorList => exact h.planned_declaratorList hkind
  case declarator => exact h.planned_declarator hkind
  case structSpecifier => exact h.planned_structSpecifier hkind
  case structDeclaration => exact h.planned_structDeclaration hkind
  case quantifiedIdentifier => exact h.planned_quantifiedIdentifier hkind
  case interfaceBlock => exact h.planned_interfaceBlock hkind
  case conditionExpression => exact h.planned_conditionExpression hkind
  case compoundStatement => exact h.planned_compoundStatement hkind
  case whileStatement => exact h.planned_whileStatement hkind
  case doStatement => exact h.planned_doStatement hkind
  case forStatement => exact h.planned_forStatement hkind
  case switchStatement => exact h.planned_switchStatement hkind
  all_goals
    rw [hkind] at huniform
    exact absurd rfl huniform

end Planned

end ShaderSource
