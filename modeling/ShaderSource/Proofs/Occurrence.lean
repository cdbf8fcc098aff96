import ShaderSource.Proofs.BindingReach

/-!
# Occurrences and their nodes

Each occurrence of a tree is one that a node says by itself, on a visit to it. An identifier says
that a variable is used, and a type name that a type is; the node right above says that they are
declared. A call says that something is called, and prototypes and definitions that there is a
function of the name in their headers. The prototype of a definition is the exception: it says
nothing for itself, the definition speaks for it. So a prototype that does say something stands in
a statement of its own.

## Main results

* `Node.AllFit.origin`: the node that an occurrence comes from.
* `Node.occurrence_about`: each occurrence of a tree is about a node of it.
-/

namespace ShaderSource

open List Node

/-! ### What nodes say -/

/-- What a node says by itself, nodes below that are gone through left aside. -/
inductive Node.Utters (n : Node) (role : Role) : Occurrence → Prop
  | declareVariable {path m} :
      .declare .var path ∈ n.plan role → m ∈ n.along path →
      Utters n role (.declareVariable m.text m.site)
  | declareType {path m} :
      .declare .type path ∈ n.plan role → m ∈ n.along path →
      Utters n role (.declareType m.text m.site)
  | useVariable : .use .var ∈ n.plan role → Utters n role (.useVariable n.text n.site)
  | useType : .use .type ∈ n.plan role → Utters n role (.useType n.text n.site)
  | call {name callee} :
      n.isPlainCall = true → Utters n role (.call name callee (argumentCount (n.field 2)) n.site)
  | prototype :
      n.kind = .functionPrototype →
      Utters n role (.declareFunction n.prototypeName n.prototypeSignature n.site)
  | definition {m} :
      n.kind = .functionDefinition → m ∈ n.field 0 → m.kind = .functionPrototype →
      Utters n role (.defineFunction m.prototypeName m.prototypeSignature n.site)
  | enter {name} : Utters n role (.enter name n.span)
  | leave : Utters n role .leave

section Origin

variable {n : Node} {role : Role} {o : Occurrence}

/-- What a node says about a function. -/
theorem Node.AllFit.utters_function (hfit : n.AllFit) {path : List Nat}
    (hmove : .function path ∈ n.plan role) (ho : o ∈ n.perform (.function path)) :
    n.Utters role o := by
  obtain ⟨prototype, hprototype, ho⟩ := mem_flatMap.mp ho
  rcases mem_cons.mp ho with rfl | ho
  · rcases plan_function hmove with ⟨hkind, rfl⟩ | ⟨hkind, rfl⟩
    · have hfield : prototype ∈ n.field 0 := by
        simpa [along] using hprototype
      rw [functionOccurrence, if_pos hkind]
      exact .definition hkind hfield (hfit.of_field hfield (by rw [hkind]; rfl)).2
    · obtain rfl := mem_singleton.mp hprototype
      rw [functionOccurrence, if_neg (by rw [hkind]; decide)]
      exact .prototype hkind
  · obtain rfl := mem_singleton.mp ho
    exact .enter

/-- What a node does besides going through nodes below is what it says. -/
theorem Node.AllFit.utters (hfit : n.AllFit) {move : Move} (hmove : move ∈ n.plan role)
    (hvisit : ∀ path role', move ≠ .visit path role') (ho : o ∈ n.perform move) :
    n.Utters role o := by
  cases move with
  | visit path role' => exact absurd rfl (hvisit path role')
  | declare c path =>
    obtain ⟨m, hm, rfl⟩ := mem_map.mp ho
    cases c with
    | var => exact .declareVariable hmove hm
    | type => exact .declareType hmove hm
  | use c =>
    obtain rfl := mem_singleton.mp ho
    cases c with
    | var => exact .useVariable hmove
    | type => exact .useType hmove
  | call =>
    obtain ⟨callee, -, ho⟩ := mem_flatMap.mp ho
    obtain ⟨name, -, rfl⟩ := mem_map.mp ho
    exact .call (call_mem_plan.mp hmove)
  | function path => exact hfit.utters_function hmove ho
  | enter name =>
    obtain rfl := mem_singleton.mp ho
    exact .enter
  | leave =>
    obtain rfl := mem_singleton.mp ho
    exact .leave

/-- Each occurrence is one that a node says on a visit to it. -/
theorem Node.AllFit.origin (hfit : n.AllFit) (ho : o ∈ n.occurrences role) :
    ∃ m role', n.Reaches role m role' ∧ m.Utters role' o := by
  obtain ⟨m, role', move, hreaches, hmove, hvisit, ho⟩ := hfit.exists_move ho
  exact ⟨m, role', hreaches, (hfit.below hreaches.mem).utters hmove hvisit ho⟩

end Origin

/-! ### Nodes above those that are visited -/

section Above

variable {n m : Node} {role role' : Role}

/-- The visits that reach further down than to a part of the node. -/
def Move.reachFits (k : Kind) : Move → Bool
  | .visit [_] _ => true
  | .visit path _ =>
    (k == .functionDefinition && (path == [0, 0, 0] || path == [0, 1])) ||
      (k == .functionPrototype && path == [0, 0])
  | _ => true

theorem Kind.plan_visit {k : Kind} {path : List Nat} (h : .visit path role' ∈ k.plan role) :
    (∃ i, path = [i]) ∨ k = .functionDefinition ∧ (path = [0, 0, 0] ∨ path = [0, 1]) ∨
      k = .functionPrototype ∧ path = [0, 0] := by
  have hall : (k.plan role).all (Move.reachFits k) = true := by
    cases k <;> cases role <;> decide
  have hfits := all_eq_true.mp hall _ h
  rcases path with _ | ⟨i, _ | ⟨j, path⟩⟩
  · simp [Move.reachFits] at hfits
  · exact .inl ⟨i, rfl⟩
  · right
    simpa [Move.reachFits] using hfits

/-- The node is one that plans reach through: a visit from further up goes to what is below it. -/
def Kind.isPassed (k : Kind) : Bool :=
  [.functionHeader, .functionPrototype, .structDeclaration].contains k

/-- What is visited is in a part of the node, or right below a node that is passed. -/
theorem Node.AllFit.visit_parent (h : n.AllFit) {path : List Nat}
    (hmove : .visit path role' ∈ n.plan role) (hm : m ∈ n.along path) :
    (∃ i, path = [i] ∧ m ∈ n.field i) ∨
      ∃ q ∈ n.preorder, m ∈ q.children ∧ q.kind.isPassed = true := by
  -- The last but one node on the way.
  have hlast : ∀ (path : List Nat) (i : Nat) (k : Kind), m ∈ n.along (path ++ [i]) →
      (∀ q ∈ n.along path, q.kind = k) → k.isPassed = true →
      ∃ q ∈ n.preorder, m ∈ q.children ∧ q.kind.isPassed = true := by
    intro path i k hm hkind hpassed
    rw [along_append] at hm
    obtain ⟨q, hq, hm⟩ := mem_flatMap.mp hm
    refine ⟨q, mem_along hq, mem_children_iff.mpr ⟨i, by simpa [along] using hm⟩, ?_⟩
    rw [hkind q hq, hpassed]
  have hstep : ∀ (path : List Nat) (i : Nat) (k k' : Kind),
      (∀ q ∈ n.along path, q.AllFit ∧ q.kind = k) →
      (k.form[i]?.map Field.kinds).getD [] = [k'] →
      ∀ q ∈ n.along (path ++ [i]), q.AllFit ∧ q.kind = k' := by
    intro path i k k' hk hform q hq
    rw [along_append] at hq
    obtain ⟨q', hq', hq⟩ := mem_flatMap.mp hq
    have hfield : q ∈ q'.field i := by simpa [along] using hq
    exact (hk q' hq').1.of_field hfield (by rw [(hk q' hq').2, hform])
  have hself : ∀ q ∈ n.along [], q.AllFit ∧ q.kind = n.kind := by
    intro q hq
    obtain rfl := mem_singleton.mp hq
    exact ⟨h, rfl⟩
  have hsingle : (∃ i, path = [i]) → ∃ i, path = [i] ∧ m ∈ n.field i := by
    rintro ⟨i, rfl⟩
    exact ⟨i, rfl, by simpa [along] using hm⟩
  rcases n.plan_cases role with ⟨-, hplan⟩ | ⟨hopen, hplan⟩ | ⟨-, -, hplan⟩
  · rw [hplan] at hmove
    simp only [mem_pair, reduceCtorEq, false_or, Move.visit.injEq] at hmove
    exact .inl (hsingle ⟨2, hmove.1⟩)
  · rw [hplan] at hmove
    simp only [mem_cons, Move.visit.injEq, not_mem_nil, or_false] at hmove
    rcases hmove with ⟨rfl, -⟩ | ⟨rfl, -⟩ | ⟨rfl, -⟩
    · exact .inl (hsingle ⟨0, rfl⟩)
    · exact .inl (hsingle ⟨3, rfl⟩)
    · have hmembers := hstep [] 3 n.kind .structDeclaration hself
        (by rw [(isOpenBlock_iff.mp hopen).1]; rfl)
      exact .inr (hlast [3] 1 .structDeclaration hm (fun q hq => (hmembers q hq).2) rfl)
  · rw [hplan] at hmove
    rcases Kind.plan_visit hmove with hpath | ⟨hkind, rfl | rfl⟩ | ⟨hkind, rfl⟩
    · exact .inl (hsingle hpath)
    · have hprototypes := hstep [] 0 n.kind .functionPrototype hself (by rw [hkind]; rfl)
      have hheaders := hstep [0] 0 .functionPrototype .functionHeader hprototypes rfl
      exact .inr (hlast [0, 0] 0 .functionHeader hm (fun q hq => (hheaders q hq).2) rfl)
    · have hprototypes := hstep [] 0 n.kind .functionPrototype hself (by rw [hkind]; rfl)
      exact .inr (hlast [0] 1 .functionPrototype hm (fun q hq => (hprototypes q hq).2) rfl)
    · have hheaders := hstep [] 0 n.kind .functionHeader hself (by rw [hkind]; rfl)
      exact .inr (hlast [0] 0 .functionHeader hm (fun q hq => (hheaders q hq).2) rfl)

/-- A prototype that is gone through stands in a statement. -/
theorem Node.AllFit.prototype_stands (h : n.AllFit) {path : List Nat}
    (hmove : .visit path role' ∈ n.plan role) (hm : m ∈ n.along path)
    (hkind : m.kind = .functionPrototype) : n.kind = .declarationStatement ∧ m ∈ n.children := by
  have hform : ∀ k : Kind, ∀ i ∈ k.nodeFields,
      .functionPrototype ∈ (k.form[i]?.map Field.kinds).getD [] →
        k = .declarationStatement ∨ k = .functionDefinition ∧ i = 0 := by
    intro k
    cases k <;> decide
  have hfield : ∀ q : Node, q.AllFit → ∀ i, m ∈ q.field i →
      q.kind = .declarationStatement ∨ q.kind = .functionDefinition ∧ i = 0 := by
    intro q hfit i hi
    exact hform q.kind i (hfit.fits.mem_nodeFields hi) (hkind ▸ hfit.fits.kind_mem_field hi)
  rcases h.visit_parent hmove hm with ⟨i, rfl, hi⟩ | ⟨q, hq, hmq, hpassed⟩
  · rcases hfield n h i hi with hstatement | ⟨hdefinition, rfl⟩
    · exact ⟨hstatement, mem_children_iff.mpr ⟨i, hi⟩⟩
    · simp [plan_of_kind, hdefinition, Kind.plan] at hmove
  · obtain ⟨i, hi⟩ := mem_children_iff.mp hmq
    rcases hfield q (h.below hq) i hi with hstatement | ⟨hdefinition, -⟩
    · simp [hstatement, Kind.isPassed] at hpassed
    · simp [hdefinition, Kind.isPassed] at hpassed

end Above

/-! ### Names of functions -/

/-- The function that the node declares, defines or calls has its name in the leaf. -/
inductive Node.NamedBy : Node → Node → Prop
  | header {id span result leaf rest} :
      NamedBy (.mk .functionHeader id span (.child result :: .child leaf :: rest)) leaf
  | prototype {id span header rest leaf} :
      header.kind = .functionHeader → NamedBy header leaf →
      NamedBy (.mk .functionPrototype id span (.child header :: rest)) leaf
  | definition {id span prototype rest leaf} :
      prototype.kind = .functionPrototype → NamedBy prototype leaf →
      NamedBy (.mk .functionDefinition id span (.child prototype :: rest)) leaf
  | call {id span leaf rest} :
      NamedBy (.mk .functionCall id span (.child leaf :: rest)) leaf

/-- A node that speaks for a function of the given name. -/
def Node.NamesFunction (n : Node) (name : String) : Prop :=
  ∃ id span t, n.NamedBy (Node.leaf .identifier id span t) ∧ t.text = name

/-! ### What occurrences are about -/

/-- The occurrence is about a node of the tree: the leaf of the name, the prototype in a statement
of its own, the definition, or the call. -/
inductive Occurrence.About (root : Node) : Occurrence → Prop
  | enter {name span} : About root (.enter name span)
  | leave : About root .leave
  | malformed {kind} : About root (.malformed kind)
  | declareVariable {id span t} :
      Node.leaf .identifier id span t ∈ root.preorder →
      About root (.declareVariable t.text ⟨id, span⟩)
  | useVariable {id span t} :
      Node.leaf .identifier id span t ∈ root.preorder → About root (.useVariable t.text ⟨id, span⟩)
  | declareType {id span t} :
      Node.leaf .typeName id span t ∈ root.preorder → About root (.declareType t.text ⟨id, span⟩)
  | useType {id span t} :
      Node.leaf .typeName id span t ∈ root.preorder → About root (.useType t.text ⟨id, span⟩)
  | declareFunction {p : Node} {name signature} :
      p ∈ root.preorder → p.kind = .functionPrototype → p.NamesFunction name →
      (p = root ∨ ∃ d ∈ root.preorder, d.kind = .declarationStatement ∧ p ∈ d.children) →
      About root (.declareFunction name signature ⟨p.id, p.span⟩)
  | defineFunction {d : Node} {name signature} :
      d ∈ root.preorder → d.kind = .functionDefinition → d.NamesFunction name →
      About root (.defineFunction name signature ⟨d.id, d.span⟩)
  | call {id span} {callee : PlainCallee} {parts arguments} :
      .mk .functionCall id span (.child callee.node :: parts) ∈ root.preorder →
      About root (.call callee.token.text ⟨callee.name, callee.span⟩ arguments ⟨id, span⟩)

section About

variable {root n m : Node} {role : Role} {o : Occurrence}

theorem Node.Fits.leaf_eq (h : n.Fits) {c : NameClass} (hkind : n.kind = c.leafKind) :
    ∃ t, n = Node.leaf c.leafKind n.id n.span t ∧ n.text = t.text := by
  obtain ⟨k, id, span, parts⟩ := n
  obtain rfl : k = c.leafKind := hkind
  obtain ⟨t, rfl⟩ := h.leaf_parts c.form_leafKind
  exact ⟨t, rfl, rfl⟩

/-- A prototype has its name in an identifier. -/
theorem Node.AllFit.prototype_names (h : n.AllFit) (hkind : n.kind = .functionPrototype) :
    n.NamesFunction n.prototypeName := by
  obtain ⟨id, span, result, name, t, parameters, ts, t', heq, -⟩ := h.prototype_eq hkind
  have hname : name.AllFit ∧ name.kind = NameClass.var.leafKind := by
    have hheader : headerNode id span result name t ∈ n.field 0 := by
      rw [heq]
      simp [Part.nodes]
    obtain ⟨hfit, -⟩ := h.of_field hheader (by rw [hkind]; rfl)
    exact hfit.of_field (i := 1) (by simp [Part.nodes]) rfl
  obtain ⟨leaf, hleaf, htext⟩ := hname.1.fits.leaf_eq hname.2
  refine ⟨name.id, name.span, leaf, ?_, ?_⟩
  · rw [heq]
    exact .prototype rfl (hleaf ▸ .header)
  · rw [heq, ← htext]
    rfl

/-- A definition has the name of its prototype. -/
theorem Node.AllFit.definition_names (h : n.AllFit) (hkind : n.kind = .functionDefinition)
    (hm : m ∈ n.field 0) : n.NamesFunction m.prototypeName := by
  obtain ⟨hfit, hprototype⟩ := h.of_field hm (by rw [hkind]; rfl)
  obtain ⟨id, span, t, hnamed, htext⟩ := hfit.prototype_names hprototype
  revert hm
  refine h.kind_cases hkind fun _ _ p _ _ _ _ hm => ?_
  obtain rfl : m = p := mem_singleton.mp hm
  exact ⟨id, span, t, .definition hprototype hnamed, htext⟩

/-- What a call says is about its node. -/
theorem Node.AllFit.about_call (h : n.AllFit) (hn : n ∈ root.preorder)
    (hplain : n.isPlainCall = true) (ho : o ∈ n.perform .call) : o.About root := by
  obtain ⟨callee, t', arguments, ts, t'', heq⟩ := h.plainCall_eq hplain
  rw [heq] at hn ho
  obtain rfl := mem_singleton.mp ho
  exact .call hn

/-- What a node says is about a node of the tree. -/
theorem Node.Utters.about (hfit : root.AllFit) (hn : n ∈ root.preorder) (h : n.Utters role o)
    (hcall : n.isPlainCall = true → o.About root)
    (hstands : n.kind = .functionPrototype →
      n = root ∨ ∃ d ∈ root.preorder, d.kind = .declarationStatement ∧ n ∈ d.children) :
    o.About root := by
  have hnfit := hfit.below hn
  have hleaf : ∀ {c : NameClass} {m}, m ∈ root.preorder → m.kind = c.leafKind →
      ∃ t, Node.leaf c.leafKind m.id m.span t ∈ root.preorder ∧ t.text = m.text := by
    intro c m hm hkind
    obtain ⟨t, heq, htext⟩ := (hfit.below hm).fits.leaf_eq hkind
    exact ⟨t, heq ▸ hm, htext.symm⟩
  have hmem : ∀ {path m}, m ∈ n.along path → m ∈ root.preorder :=
    fun hm => mem_preorder_trans hn (mem_along hm)
  cases h with
  | declareVariable hmove hm =>
    obtain ⟨t, hleaf, htext⟩ := hleaf (hmem hm) (hnfit.kind_declared hmove hm).1
    exact htext ▸ .declareVariable hleaf
  | declareType hmove hm =>
    obtain ⟨t, hleaf, htext⟩ := hleaf (hmem hm) (hnfit.kind_declared hmove hm).1
    exact htext ▸ .declareType hleaf
  | useVariable hmove =>
    obtain ⟨t, hleaf, htext⟩ := hleaf hn (plan_use hmove)
    exact htext ▸ .useVariable hleaf
  | useType hmove =>
    obtain ⟨t, hleaf, htext⟩ := hleaf hn (plan_use hmove)
    exact htext ▸ .useType hleaf
  | call hplain => exact hcall hplain
  | prototype hkind =>
    exact .declareFunction hn hkind (hnfit.prototype_names hkind) (hstands hkind)
  | definition hkind hm => exact .defineFunction hn hkind (hnfit.definition_names hkind hm)
  | enter => exact .enter
  | leave => exact .leave

/-- Each occurrence of a tree is about a node of it. -/
theorem Node.occurrence_about (h : n.AllFit) (ho : o ∈ n.occurrences role) : o.About n := by
  obtain ⟨m, role', move, hreach, hmove, hvisit, ho⟩ := h.exists_move ho
  have hmfit := h.below hreach.mem
  refine Node.Utters.about h hreach.mem (hmfit.utters hmove hvisit ho) (fun hplain => ?_)
    fun hkind => ?_
  · rw [plan, if_pos hplain] at hmove
    obtain rfl : move = .call := by simpa [hvisit] using hmove
    exact hmfit.about_call hreach.mem hplain ho
  · cases hreach with
    | refl => exact .inl rfl
    | visit hreach hmove hm =>
      obtain ⟨hstatement, hc⟩ := (h.below hreach.mem).prototype_stands hmove hm hkind
      exact .inr ⟨_, hreach.mem, hstatement, hc⟩

end About

end ShaderSource
