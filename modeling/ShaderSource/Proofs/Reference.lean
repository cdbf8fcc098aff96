import ShaderSource.Proofs.Listing
import ShaderSource.Proofs.Occurrence
import ShaderSource.Proofs.Renaming
import ShaderSource.Proofs.RoundTrip

/-!
# References and their nodes

The registries of a program list nodes of its tree. A node that is listed as a reference to a
variable is an identifier with the name of the variable. One that is listed as a reference to a
function is a definition, a call, or a prototype in a statement of its own, and has the name of the
function in an identifier, which no other reference has. All this stays so when the tree is
relabelled, but for the names.

Types are different: a type may be listed with a node that is not in the tree, or is no type name.

## Main results

* `Program.ComesFrom.bears`: the nodes that are listed as variables and functions.
* `Node.Serves.rename_eq`: what a renaming does to a tree that has all that is listed.
* `Program.ComesFrom.serves`: the tree of a program has all its variables and functions.
* `Program.ComesFrom.listed_type`: what is listed as a type.
-/

namespace ShaderSource

open List Node

/-! ### Where names stand -/

/-- The node is a reference in the tree, and its name stands in the leaf. -/
inductive Node.Bears (root : Node) : RenameTarget → Node → Node → Prop
  | ofVariable {id span t} :
      Bears root .vars (Node.leaf .identifier id span t) (Node.leaf .identifier id span t)
  | ofType {id span t} :
      Bears root .types (Node.leaf .typeName id span t) (Node.leaf .typeName id span t)
  | ofFunction {n : Node} {id span t} :
      n.NamedBy (Node.leaf .identifier id span t) → n.kind ≠ .functionHeader →
      (n.kind = .functionPrototype →
        ∃ d ∈ root.preorder, d.kind = .declarationStatement ∧ n ∈ d.children) →
      Bears root .functions n (Node.leaf .identifier id span t)

variable {id i : NodeId} {span : Option Span} {rest : List Part} {root leaf' : Node}
  {name x : String} {target : RenameTarget}

section NamedBy

variable {n leaf : Node}

theorem Node.NamedBy.namedLeaf {t : Token} (h : n.NamedBy (Node.leaf .identifier id span t)) :
    n.namedLeaf .functions = .ok (Node.leaf .identifier id span t) := by
  generalize hleaf : Node.leaf .identifier id span t = leaf at h
  induction h with
  | header | call => subst hleaf; simp [Node.leaf, Node.namedLeaf]
  | prototype _ _ ih | definition _ _ ih => rw [Node.namedLeaf, if_pos rfl, ih hleaf]

/-- The node right above the leaf: the reference itself if it is a call, and a header otherwise. -/
theorem Node.NamedBy.parent (h : n.NamedBy leaf) :
    ∃ m ∈ n.preorder, leaf ∈ m.children ∧
      (m = n ∧ n.kind = .functionCall ∨ m.kind = .functionHeader ∧ n.kind ≠ .functionCall) := by
  induction h with
  | header => exact ⟨_, mem_preorder_self _, by simp [Part.nodes], .inr ⟨rfl, by simp⟩⟩
  | @prototype _ _ c _ _ hkind _ ih | @definition _ _ c _ _ hkind _ ih =>
    obtain ⟨m, hm, hleaf, hm'⟩ := ih
    refine ⟨m, mem_preorder_of_mem_child (c := c) (by simp [Part.nodes]) hm, hleaf, ?_⟩
    rcases hm' with ⟨-, hcall⟩ | ⟨hheader, -⟩
    · rw [hkind] at hcall
      cases hcall
    · exact .inr ⟨hheader, by simp⟩
  | call => exact ⟨_, mem_preorder_self _, by simp [Part.nodes], .inl ⟨rfl, rfl⟩⟩

theorem Node.NamedBy.mem (h : n.NamedBy leaf) : leaf ∈ n.preorder := by
  obtain ⟨m, hm, hleaf, -⟩ := h.parent
  exact mem_preorder_of_mem_children hm hleaf

theorem Node.mem_children_first {k : Kind} {c : Node} :
    c ∈ (Node.mk k id span (.child c :: rest)).children := by
  simp [Part.nodes]

theorem Node.mem_preorder_first {k : Kind} {c : Node}
    (h : Node.mk k id span (.child c :: rest) ∈ root.preorder) : c ∈ root.preorder :=
  mem_preorder_of_mem_children h mem_children_first

/-- Two nodes of the same kind with their names in the same leaf are the same. -/
theorem Node.NamedBy.unique {n' : Node} (hids : root.Distinct) (h : n.NamedBy leaf)
    (h' : n'.NamedBy leaf') (hn : n ∈ root.preorder) (hn' : n' ∈ root.preorder)
    (hkind : n.kind = n'.kind) (hid : leaf.id = leaf'.id) : n = n' := by
  induction h generalizing n' with
  | header =>
    cases h' with
    | header =>
      exact hids.parent_unique hn hn' (by simp [Part.nodes]) (by simp [Part.nodes]) hid
    | prototype | definition | call => cases hkind
  | prototype hc _ ih =>
    cases h' with
    | prototype hc' h' =>
      have hsame := ih h' (mem_preorder_first hn) (mem_preorder_first hn')
        (hc.trans hc'.symm) hid
      exact hids.parent_unique hn hn' mem_children_first mem_children_first
        (congrArg Node.id hsame)
    | header | definition | call => cases hkind
  | definition hc _ ih =>
    cases h' with
    | definition hc' h' =>
      have hsame := ih h' (mem_preorder_first hn) (mem_preorder_first hn')
        (hc.trans hc'.symm) hid
      exact hids.parent_unique hn hn' mem_children_first mem_children_first
        (congrArg Node.id hsame)
    | header | prototype | call => cases hkind
  | call =>
    cases h' with
    | call =>
      exact hids.parent_unique hn hn' mem_children_first mem_children_first hid
    | header | prototype | definition => cases hkind

theorem Node.NamedBy.relabel (h : n.NamedBy leaf) (names : Registry NodeId String) :
    (n.relabel names).NamedBy (leaf.relabel names) := by
  have hname : ¬Kind.IsName .functionHeader ∧ ¬Kind.IsName .functionPrototype ∧
      ¬Kind.IsName .functionDefinition ∧ ¬Kind.IsName .functionCall := by
    simp [Kind.IsName]
  obtain ⟨hheader, hprototype, hdefinition, hcall⟩ := hname
  induction h with
  | header =>
    rw [relabel_mk names hheader]
    exact .header
  | prototype hkind _ ih =>
    rw [relabel_mk names hprototype]
    exact .prototype (by rw [kind_relabel, hkind]) ih
  | definition hkind _ ih =>
    rw [relabel_mk names hdefinition]
    exact .definition (by rw [kind_relabel, hkind]) ih
  | call =>
    rw [relabel_mk names hcall]
    exact .call

end NamedBy

section Bears

variable {root n leaf : Node} {target : RenameTarget}

theorem Node.Bears.namedLeaf (h : root.Bears target n leaf) : n.namedLeaf target = .ok leaf := by
  cases h with
  | ofVariable | ofType => simp [Node.leaf, Node.namedLeaf]
  | ofFunction h => exact h.namedLeaf

theorem Node.Bears.mem (h : root.Bears target n leaf) : leaf ∈ n.preorder := by
  cases h with
  | ofVariable | ofType => exact mem_preorder_self _
  | ofFunction h => exact h.mem

/-- A prototype in a statement of its own is not the one of a definition. -/
theorem Node.NamedBy.not_prototype {d : Node} (hids : root.Distinct) (h : n.NamedBy leaf)
    (hn : n ∈ root.preorder) (hkind : n.kind = .functionPrototype)
    (hstands : ∃ s ∈ root.preorder, s.kind = .declarationStatement ∧ n ∈ s.children)
    (h' : d.NamedBy leaf') (hd : d ∈ root.preorder) (hdkind : d.kind = .functionDefinition) :
    leaf.id ≠ leaf'.id := by
  intro hid
  cases h' with
  | header | prototype | call => cases hdkind
  | definition hc h' =>
    obtain rfl := h.unique hids h' hn (mem_preorder_first hd) (hkind.trans hc.symm) hid
    obtain ⟨s, hs, hskind, hmem⟩ := hstands
    have hsame := hids.parent_unique hs hd hmem mem_children_first rfl
    rw [hsame] at hskind
    cases hskind

theorem Node.NamedBy.kind (h : n.NamedBy leaf) :
    n.kind = .functionHeader ∨ n.kind = .functionPrototype ∨ n.kind = .functionDefinition ∨
      n.kind = .functionCall := by
  cases h <;> simp

/-- Two references with their names in the same leaf are the same. -/
theorem Node.Bears.unique {n' : Node} (hids : root.Distinct) (h : root.Bears target n leaf)
    (h' : root.Bears target n' leaf') (hn : n ∈ root.preorder) (hn' : n' ∈ root.preorder)
    (hid : leaf.id = leaf'.id) : n = n' := by
  cases h with
  | ofVariable | ofType =>
    cases h'
    exact hids.eq_of_id hn hn' hid
  | ofFunction hnamed hheader hstands =>
    cases h' with
    | ofFunction hnamed' hheader' hstands' =>
      obtain ⟨m, hm, hleaf, hkind⟩ := hnamed.parent
      obtain ⟨m', hm', hleaf', hkind'⟩ := hnamed'.parent
      obtain rfl := hids.parent_unique (mem_preorder_trans hn hm)
        (mem_preorder_trans hn' hm') hleaf hleaf' hid
      rcases hkind with ⟨rfl, hcall⟩ | ⟨hm, hcall⟩
      · rcases hkind' with ⟨heq, -⟩ | ⟨hm', -⟩
        · exact heq
        · rw [hcall] at hm'
          cases hm'
      · rcases hkind' with ⟨rfl, hcall'⟩ | ⟨-, hcall'⟩
        · rw [hcall'] at hm
          cases hm
        · have hk := hnamed.kind
          have hk' := hnamed'.kind
          simp only [hheader, hheader', hcall, hcall', false_or, or_false] at hk hk'
          rcases hk with hk | hk <;> rcases hk' with hk' | hk'
          · exact hnamed.unique hids hnamed' hn hn' (hk.trans hk'.symm) hid
          · exact absurd hid (hnamed.not_prototype hids hn hk (hstands hk) hnamed' hn' hk')
          · exact absurd hid.symm
              (hnamed'.not_prototype hids hn' hk' (hstands' hk') hnamed hn hk)
          · exact hnamed.unique hids hnamed' hn hn' (hk.trans hk'.symm) hid

theorem Node.Bears.relabel (h : root.Bears target n leaf) (names : Registry NodeId String) :
    (root.relabel names).Bears target (n.relabel names) (leaf.relabel names) := by
  cases h with
  | @ofVariable id span t =>
    obtain ⟨t', ht'⟩ := exists_relabel_leaf names (.inl rfl) id span t
    rw [ht']
    exact .ofVariable
  | @ofType id span t =>
    obtain ⟨t', ht'⟩ := exists_relabel_leaf names (.inr rfl) id span t
    rw [ht']
    exact .ofType
  | @ofFunction _ id span t hnamed hheader hstands =>
    have hnamed' := hnamed.relabel names
    obtain ⟨t', ht'⟩ := exists_relabel_leaf names (.inl rfl) id span t
    rw [ht'] at hnamed' ⊢
    refine .ofFunction hnamed' (by rwa [kind_relabel]) fun hkind => ?_
    rw [kind_relabel] at hkind
    obtain ⟨d, hd, hdkind, hmem⟩ := hstands hkind
    refine ⟨d.relabel names, ?_, by rw [kind_relabel, hdkind], ?_⟩
    · rw [preorder_relabel]
      exact mem_map_of_mem hd
    · rw [children_relabel]
      exact mem_map_of_mem hmem

end Bears

/-! ### Exchanged callees -/

section Exchange

variable {n : Node} (callees : Registry NodeId NodeId)

theorem Node.exchangeCallees_of_kind (h : n.kind ≠ .functionCall) :
    n.exchangeCallees callees = n.mapChildren (Node.exchangeCallees callees) := by
  rcases n.exchangeCallees_cases callees with heq | ⟨_, _, _, _, _, rfl, -⟩
  · exact heq
  · exact absurd rfl h

theorem Node.exchangeCallees_leaf (kind : Kind) (id : NodeId) (span : Option Span) (t : Token) :
    (Node.leaf kind id span t).exchangeCallees callees = Node.leaf kind id span t := by
  rcases (Node.leaf kind id span t).exchangeCallees_cases callees with
    heq | ⟨_, _, _, _, _, heq, -⟩
  · rw [heq, mapChildren_leaf]
  · cases heq

theorem Node.exchangeCallees_call {fresh : NodeId} (hget : callees.get? id = some fresh)
    (span : Option Span) (callee : PlainCallee) (parts : List Part) :
    (Node.mk .functionCall id span (.child callee.node :: parts)).exchangeCallees callees =
      .mk .functionCall id span
        (.child (Node.leaf .identifier fresh callee.span callee.token) ::
          parts.map (Part.mapNodes (Node.exchangeCallees callees))) := by
  simp [PlainCallee.node, Node.leaf, Node.exchangeCallees, hget, Part.exchangeCalleesAll_eq]

theorem Node.NamedBy.exchangeCallees {leaf : Node} (h : n.NamedBy leaf)
    (hkind : n.kind ≠ .functionCall) :
    (n.exchangeCallees callees).NamedBy (leaf.exchangeCallees callees) := by
  induction h with
  | header =>
    rw [exchangeCallees_of_kind callees hkind]
    exact .header
  | prototype hc _ ih =>
    rw [exchangeCallees_of_kind callees hkind]
    exact .prototype (by rw [kind_exchangeCallees, hc]) (ih (by simp [hc]))
  | definition hc _ ih =>
    rw [exchangeCallees_of_kind callees hkind]
    exact .definition (by rw [kind_exchangeCallees, hc]) (ih (by simp [hc]))
  | call => exact absurd rfl hkind

theorem Node.NamesFunction.exchangeCallees (h : n.NamesFunction name)
    (hkind : n.kind ≠ .functionCall) : (n.exchangeCallees callees).NamesFunction name := by
  obtain ⟨id, span, t, hnamed, htext⟩ := h
  have hexchanged := hnamed.exchangeCallees callees hkind
  rw [exchangeCallees_leaf] at hexchanged
  exact ⟨id, span, t, hexchanged, htext⟩

end Exchange

/-! ### What a program comes from -/

/-- A program comes from a tree with consecutive identities and from what binding knows about the
names in it: its tree is that tree with the callees exchanged. -/
structure Program.ComesFrom (p : Program) (tree : Node) (last : NodeId) (b : Names) : Prop where
  root : p.root = tree.exchangeCallees b.callees
  scopes : p.scopes = b.scopes
  kind : tree.kind = .program
  fit : tree.AllFit
  ids : Consecutive 0 tree.ids last
  sound : b.Sound last (tree.occurrences .plain)

theorem Program.comesFrom {text : String} {options : Options} {p : Program}
    (h : Program.parse text options = .ok p) : ∃ tree last b, p.ComesFrom tree last b := by
  obtain ⟨tree, b, htree, hbind, rfl⟩ := Program.parse_eq_ok h
  refine ⟨(tree.number 0).1, (tree.number 0).2, b.names, rfl, rfl, ?_,
    number_allFit (readTree_allFit htree) 0, tree.number_consecutive 0,
    (Binding.ofTree_sound hbind).1⟩
  obtain ⟨ns, j, rfl, -⟩ := readTree_sound htree
  rw [kind_number]
  rfl

namespace Program.ComesFrom

variable {p : Program} {tree : Node} {last : NodeId} {b : Names} (h : p.ComesFrom tree last b)

include h

/-- New callees are not in the tree as it was read. -/
theorem fresh {site v : NodeId} (hget : b.callees.get? site = some v) : v ∉ tree.ids := by
  intro hmem
  have hlt := (h.sound.fresh site v hget).1
  have hle := (h.ids.mem hmem).2
  exact Nat.not_lt_of_le hle hlt

theorem distinct : p.root.Distinct := by
  rw [h.root]
  exact Distinct.exchangeCallees h.ids.nodup (fun _ _ => h.fresh) h.sound.distinct

theorem allFit : p.root.AllFit := by
  rw [h.root]
  exact exchangeCallees_allFit h.fit b.callees

theorem kind_root : p.root.kind = .program := by
  rw [h.root, kind_exchangeCallees, h.kind]

/-- Whatever is registered is registered by an occurrence, which is about a node. -/
theorem registered (href : p.scopes.Refers target x i) :
    ∃ o : Occurrence, o.Registers b.callees target x i ∧ o.About tree := by
  rw [h.scopes] at href
  obtain ⟨o, ho, hreg⟩ := h.sound.refers target x i href
  exact ⟨o, hreg, occurrence_about h.fit ho⟩

/-- Identifiers stay in the tree. -/
theorem identifier_mem {t : Token} (hmem : Node.leaf .identifier id span t ∈ tree.preorder) :
    Node.leaf .identifier id span t ∈ p.root.preorder := by
  rw [h.root, ← exchangeCallees_leaf b.callees]
  exact exchangeCallees_mem b.callees hmem (by simp [Node.leaf]) (by simp [Node.leaf])

/-- The nodes that are listed as variables and functions are in the tree, and their names stand in
identifiers. -/
theorem bears (htarget : target ≠ .types) (href : p.scopes.Refers target x i) :
    ∃ n ∈ p.root.preorder, n.id = i ∧
      ∃ id span t, p.root.Bears target n (Node.leaf .identifier id span t) ∧ t.text = x := by
  -- A definition, or a prototype in a statement of its own.
  have hfunction : ∀ n ∈ tree.preorder, n.NamesFunction x →
      n.kind = .functionDefinition ∨ n.kind = .functionPrototype ∧
        (∃ d ∈ tree.preorder, d.kind = .declarationStatement ∧ n ∈ d.children) →
      ∃ m ∈ p.root.preorder, m.id = n.id ∧
        ∃ id span t, p.root.Bears .functions m (Node.leaf .identifier id span t) ∧ t.text = x := by
    intro n hn hname hkind
    have hcall : n.kind ≠ .functionCall ∧ n.kind ≠ .functionHeader ∧ n.kind ≠ .typeSpecifier ∧
        n.kind ≠ .typeName := by
      rcases hkind with hkind | ⟨hkind, -⟩ <;> simp [hkind]
    obtain ⟨id, span, t, hnamed, htext⟩ := hname.exchangeCallees b.callees hcall.1
    refine ⟨n.exchangeCallees b.callees, ?_, id_exchangeCallees _ _, id, span, t,
      .ofFunction hnamed ?_ fun hprototype => ?_, htext⟩
    · rw [h.root]
      exact exchangeCallees_mem b.callees hn hcall.2.2.1 hcall.2.2.2
    · rw [kind_exchangeCallees]
      exact hcall.2.1
    · rw [kind_exchangeCallees] at hprototype
      rcases hkind with hkind | ⟨-, d, hd, hdkind, hmem⟩
      · rw [hkind] at hprototype
        cases hprototype
      · refine ⟨d.exchangeCallees b.callees, ?_, by rw [kind_exchangeCallees, hdkind], ?_⟩
        · rw [h.root]
          exact exchangeCallees_mem b.callees hd (by simp [hdkind]) (by simp [hdkind])
        · rw [exchangeCallees_of_kind b.callees (by simp [hdkind]), children_mapChildren]
          exact mem_map_of_mem hmem
  obtain ⟨o, hreg, habout⟩ := h.registered href
  cases hreg with
  | declaredVariable =>
    cases habout with
    | declareVariable hleaf =>
      exact ⟨_, h.identifier_mem hleaf, rfl, _, _, _, .ofVariable, rfl⟩
  | usedVariable =>
    cases habout with
    | useVariable hleaf =>
      exact ⟨_, h.identifier_mem hleaf, rfl, _, _, _, .ofVariable, rfl⟩
  | declaredType | usedType | calledType | calledExchanged => exact absurd rfl htarget
  | declaredFunction =>
    cases habout with
    | declareFunction hf hkind hname hstands =>
      refine hfunction _ hf hname (.inr ⟨hkind, ?_⟩)
      rcases hstands with rfl | hstands
      · rw [h.kind] at hkind
        cases hkind
      · exact hstands
  | definedFunction =>
    cases habout with
    | defineFunction hf hkind hname => exact hfunction _ hf hname (.inl hkind)
  | calledFunction hget =>
    cases habout with
    | @call id span callee parts _ hcall =>
      have hmem := exchangeCallees_mem b.callees hcall (by simp) (by simp)
      rw [← h.root, exchangeCallees_call b.callees hget] at hmem
      exact ⟨_, hmem, rfl, _, _, _, .ofFunction .call (by simp) (by simp), rfl⟩

/-- What is listed as a type is a type name of the tree as it was read, or a new callee. -/
theorem listed_type (href : p.scopes.Refers .types x i) :
    (∃ span t, Node.leaf .typeName i span t ∈ tree.preorder ∧ t.text = x) ∨
      ∃ site, b.callees.get? site = some i := by
  obtain ⟨o, hreg, habout⟩ := h.registered href
  cases hreg with
  | declaredType =>
    cases habout with
    | declareType hleaf => exact .inl ⟨_, _, hleaf, rfl⟩
  | usedType =>
    cases habout with
    | useType hleaf => exact .inl ⟨_, _, hleaf, rfl⟩
  | calledType =>
    cases habout with
    | @call _ _ callee _ _ hcall =>
      refine .inl ⟨callee.nameSpan, callee.token, mem_preorder_trans (mem_preorder_first hcall) ?_,
        rfl⟩
      exact child_mem_preorder mem_children_first
  | calledExchanged hget => exact .inr ⟨_, hget⟩

/-- A node of the tree was read, or is a new callee. -/
theorem origin {n : Node} (hn : n ∈ p.root.preorder) :
    (∃ m ∈ tree.preorder, n = m.exchangeCallees b.callees) ∨
      ∃ site fresh span t, b.callees.get? site = some fresh ∧
        n = Node.leaf .identifier fresh span t :=
  mem_exchangeCallees b.callees (h.root ▸ hn)

/-- A node of the tree that is listed as a type is a type name, or an identifier that has come into
the place of one. -/
theorem kind_of_listed_type {n : Node} (hn : n ∈ p.root.preorder)
    (href : p.scopes.Refers .types x n.id) :
    (∃ id span t, n = Node.leaf .typeName id span t ∧ t.text = x) ∨
      ∃ id span t, n = Node.leaf .identifier id span t := by
  rcases h.origin hn with ⟨m, hm, rfl⟩ | ⟨_, _, span, t, -, rfl⟩
  · rw [id_exchangeCallees] at href
    rcases h.listed_type href with ⟨span, t, hleaf, htext⟩ | ⟨site, hget⟩
    · have heq := Distinct.eq_of_id h.ids.nodup hm hleaf rfl
      refine .inl ⟨m.id, span, t, ?_, htext⟩
      rw [heq, exchangeCallees_leaf]
      rfl
    · exact absurd (id_mem_ids hm) (h.fresh hget)
  · exact .inr ⟨_, span, t, rfl⟩

end Program.ComesFrom

/-! ### Registered names -/

section Listed

variable {scope : Scope} {target : RenameTarget}

theorem Scope.refers_of_nameOf? (h : scope.nameOf? target i = some name) :
    scope.Refers target name i := by
  have hfold : ∀ (pairs : List (NodeId × String)) (r : Registry NodeId String),
      (pairs.foldl (fun r e => r.insert e.1 e.2) r).get? i = some name →
      (i, name) ∈ pairs ∨ r.get? i = some name := by
    intro pairs
    induction pairs with
    | nil => exact fun r hr => .inr hr
    | cons e pairs ih =>
      intro r hr
      rcases ih _ hr with hmem | hget
      · exact .inl (mem_cons_of_mem _ hmem)
      · rw [Registry.get?_insert] at hget
        split at hget
        · rename_i heq
          cases hget
          exact .inl (heq ▸ mem_cons_self)
        · exact .inr hget
  rcases hfold _ [] h with hmem | hget
  · obtain ⟨⟨name', ids⟩, hentry, hmem⟩ := mem_flatMap.mp hmem
    obtain ⟨j, hj, heq⟩ := mem_map.mp hmem
    cases heq
    exact ⟨ids, hentry, hj⟩
  · cases hget

theorem Scope.exists_nameOf? (h : scope.Refers target name i) :
    ∃ name', scope.nameOf? target i = some name' := by
  have hfold : ∀ (pairs : List (NodeId × String)) (r : Registry NodeId String),
      ((∃ name, (i, name) ∈ pairs) ∨ ∃ name, r.get? i = some name) →
      ∃ name, (pairs.foldl (fun r e => r.insert e.1 e.2) r).get? i = some name := by
    intro pairs
    induction pairs with
    | nil =>
      rintro r (⟨name, hmem⟩ | hr)
      · cases hmem
      · exact hr
    | cons e pairs ih =>
      intro r hr
      refine ih _ ?_
      rcases hr with ⟨name, hmem⟩ | ⟨name, hget⟩
      · rcases mem_cons.mp hmem with rfl | hmem
        · exact .inr ⟨name, by rw [Registry.get?_insert, if_pos rfl]⟩
        · exact .inl ⟨name, hmem⟩
      · right
        by_cases heq : e.1 = i
        · exact ⟨e.2, by rw [Registry.get?_insert, if_pos heq]⟩
        · exact ⟨name, by rw [Registry.get?_insert, if_neg heq, hget]⟩
  obtain ⟨ids, hentry, hi⟩ := h
  refine hfold _ [] (.inl ⟨name, ?_⟩)
  exact mem_flatMap.mpr ⟨(name, ids), hentry, mem_map_of_mem hi⟩

/-- References whose names stand in leaves have leaves of their own. -/
theorem Node.ownsLeaves_of_bears (hids : root.Distinct)
    (h : ∀ n ∈ root.preorder, ∀ x, scope.nameOf? target n.id = some x →
      ∃ leaf, root.Bears target n leaf) : root.OwnsLeaves scope target where
  leaf n hn href := by
    obtain ⟨name, hname⟩ := Option.ne_none_iff_exists'.mp href
    obtain ⟨leaf, hleaf⟩ := h n hn name hname
    exact ⟨leaf, hleaf.namedLeaf⟩
  unique n hn n' hn' href href' leaf leaf' hleaf hleaf' hid := by
    obtain ⟨name, hname⟩ := Option.ne_none_iff_exists'.mp href
    obtain ⟨name', hname'⟩ := Option.ne_none_iff_exists'.mp href'
    obtain ⟨l, hl⟩ := h n hn name hname
    obtain ⟨l', hl'⟩ := h n' hn' name' hname'
    obtain rfl := Except.ok.inj (hleaf.symm.trans hl.namedLeaf)
    obtain rfl := Except.ok.inj (hleaf'.symm.trans hl'.namedLeaf)
    exact hl.unique hids hl' hn hn' hid

/-- A tree retains a registry of a scope if what is listed there and is in the tree has its name in
a leaf, and no node is listed under two names. -/
structure Node.Retains (root : Node) (scope : Scope) (target : RenameTarget) : Prop where
  kind : root.kind = .program
  fit : root.AllFit
  distinct : root.Distinct
  oneName : ∀ {x y i}, scope.Refers target x i → scope.Refers target y i → x = y
  bears_of_mem : ∀ {n x}, n ∈ root.preorder → scope.Refers target x n.id →
    ∃ leaf, root.Bears target n leaf

namespace Node.Retains

variable {root : Node} (h : root.Retains scope target)

include h

theorem nameOf?_eq_some : scope.nameOf? target i = some x ↔ scope.Refers target x i := by
  constructor
  · exact Scope.refers_of_nameOf?
  · intro href
    obtain ⟨y, hy⟩ := Scope.exists_nameOf? href
    rw [hy, h.oneName (Scope.refers_of_nameOf? hy) href]

theorem ownsLeaves : root.OwnsLeaves scope target :=
  ownsLeaves_of_bears h.distinct fun _ hn _ hname =>
    h.bears_of_mem hn (Scope.refers_of_nameOf? hname)

/-- A renaming of a registry reaches the references that are left. -/
theorem renamesReached {τ : Type} (mangle : Mangle τ) (mangling : τ) :
    root.RenamesReached scope target mangle mangling :=
  h.ownsLeaves.renamesReached h.fit h.distinct (by simp [h.kind, Kind.IsName]) mangle mangling

end Node.Retains

/-- A tree serves a registry of a scope if all that is listed there is in it, with the names in
leaves, and no node is listed under two names. -/
structure Node.Serves (root : Node) (scope : Scope) (target : RenameTarget) : Prop where
  kind : root.kind = .program
  fit : root.AllFit
  distinct : root.Distinct
  oneName : ∀ {x y i}, scope.Refers target x i → scope.Refers target y i → x = y
  bears : ∀ {x i}, scope.Refers target x i →
    ∃ n ∈ root.preorder, n.id = i ∧ ∃ leaf, root.Bears target n leaf

namespace Node.Serves

variable {root : Node} (h : root.Serves scope target)

include h

theorem retains : root.Retains scope target where
  kind := h.kind
  fit := h.fit
  distinct := h.distinct
  oneName := h.oneName
  bears_of_mem hn href := by
    obtain ⟨m, hm, hid, leaf, hleaf⟩ := h.bears href
    obtain rfl := h.distinct.eq_of_id hm hn hid
    exact ⟨leaf, hleaf⟩

/-- Relabelled trees serve what the tree does. -/
theorem relabel (names : Registry NodeId String) : (root.relabel names).Serves scope target where
  kind := by rw [kind_relabel, h.kind]
  fit := h.fit.relabel names
  distinct := h.distinct.relabel names
  oneName := h.oneName
  bears := by
    intro x i href
    obtain ⟨n, hn, rfl, leaf, hleaf⟩ := h.bears href
    refine ⟨n.relabel names, ?_, n.id_relabel names, leaf.relabel names, hleaf.relabel names⟩
    rw [preorder_relabel]
    exact mem_map_of_mem hn

/-- What a renaming of a registry does to a tree that serves it. -/
theorem rename_eq {τ : Type} (mangle : Mangle τ) (mangling : τ) :
    (root.rename scope target mangle mangling).error = none ∧
      (root.rename scope target mangle mangling).root =
        root.relabel (root.renamed scope target mangle mangling).1 ∧
      (root.rename scope target mangle mangling).mangling =
        (root.renamed scope target mangle mangling).2 := by
  have hreached := h.retains.renamesReached mangle mangling
  refine ⟨?_, hreached.root_eq, hreached.mangling_eq⟩
  -- All that is listed is in the tree, so nothing is left over.
  rw [hreached.error_eq, Option.map_eq_none_iff, head?_eq_none_iff,
    eq_nil_iff_forall_not_mem]
  rintro ⟨i, name⟩ hleft
  obtain ⟨hname, hi⟩ := (hreached.mem_leftOver i name).mp hleft
  obtain ⟨n, hn, rfl, -⟩ := h.bears (Scope.refers_of_nameOf? hname)
  exact hi (id_mem_ids hn)

end Node.Serves

end Listed

/-- The tree of a program serves its registries of variables and functions. -/
theorem Program.ComesFrom.serves {p : Program} {tree : Node} {last : NodeId} {b : Names}
    (h : p.ComesFrom tree last b) {scope : Scope} (hscope : scope ∈ p.scopes.scopes)
    (htarget : target ≠ .types) : p.root.Serves scope target where
  kind := h.kind_root
  fit := h.allFit
  distinct := h.distinct
  oneName := by
    intro x y i hx hy
    obtain ⟨n, hn, hid, _, _, t, hleaf, rfl⟩ := h.bears htarget ⟨scope, hscope, hx⟩
    obtain ⟨n', hn', hid', _, _, t', hleaf', rfl⟩ := h.bears htarget ⟨scope, hscope, hy⟩
    obtain rfl := h.distinct.eq_of_id hn hn' (hid.trans hid'.symm)
    have hsame := Except.ok.inj (hleaf.namedLeaf.symm.trans hleaf'.namedLeaf)
    cases hsame
    rfl
  bears := by
    intro x i href
    obtain ⟨n, hn, hid, _, _, _, hleaf, -⟩ := h.bears htarget ⟨scope, hscope, href⟩
    exact ⟨n, hn, hid, _, hleaf⟩

end ShaderSource
