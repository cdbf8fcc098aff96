import ShaderSource.DeclaredNames
import ShaderSource.Proofs.Diagnosis

/-!
# Names declared with a qualifier

The names that declarations carry a qualifier for are read off the tree, while variables are
registered by going through its occurrences. Both speak of the same leaves: a name that is read off
a declaration right below the root stands in an identifier that is declared there, and since such a
declaration opens no scope, it is declared in the outermost one. So the names follow a renaming of
the variables of that scope. Names of built-in variables are not registered and stay.

Exchanging callees and relabelling make a tree anew from below, names and calls apart. What is read
off a tree that was made so is said once, in terms of the leaves of the tree before.

## Main results

* `Node.AllFit.declaredNames_eq`: the names are those in certain leaves.
* `Program.BoundAs.declared_leaf`: these leaves are declared in the outermost scope.
* `Program.declaredNames_rename`: the names follow a renaming.
-/

namespace ShaderSource

open Kind List Node ShaderSource.Part

/-! ### The leaves with the names -/

/-- The leaves with the names that a declaration declares with a qualifier. -/
def Node.qualifiedLeaves (qualifier : String) (d : Node) : List Node :=
  if d.kind = .declaratorList then
    if hasQualifier (d.along [0, 0]) qualifier then d.along [1, 0] else []
  else if d.kind = .interfaceBlock then
    if hasQualifier (d.field 0) qualifier then
      if d.isOpenBlock then d.along [3, 1, 0] else d.along [5, 0]
    else []
  else []

/-- The leaves with the names that a statement declares with a qualifier. -/
def Node.statementLeaves (qualifier : String) (s : Node) : List Node :=
  if s.kind = .declarationStatement then (s.field 0).flatMap (qualifiedLeaves qualifier)
  else []

/-- Nodes are made anew from the nodes below them, calls and names apart, and identifiers stay
identifiers. -/
structure Node.Remakes (f : Node → Node) : Prop where
  kind : ∀ n, (f n).kind = n.kind
  below : ∀ n : Node, n.kind ≠ .functionCall → ¬n.kind.IsName → f n = n.mapChildren f
  identifier : ∀ id span t, ∃ t', f (Node.leaf .identifier id span t) =
    Node.leaf .identifier id span t'

theorem Node.remakes_exchangeCallees (callees : Registry NodeId NodeId) :
    Remakes (Node.exchangeCallees callees) where
  kind n := n.kind_exchangeCallees callees
  below _ hcall _ := exchangeCallees_of_kind callees hcall
  identifier id span t := ⟨t, exchangeCallees_leaf callees _ id span t⟩

/-- A tree that is made anew and then relabelled is made anew. -/
theorem Node.Remakes.relabel {f : Node → Node} (h : Remakes f)
    (names : Registry NodeId String) : Remakes fun n => (f n).relabel names where
  kind n := by rw [kind_relabel, h.kind]
  below n hcall hname := by
    rw [relabel_of_kind names (by rwa [h.kind]), h.below n hcall hname, mapChildren_mapChildren]
  identifier id span t := by
    obtain ⟨t', heq⟩ := h.identifier id span t
    rw [heq, relabel_leaf (.inl rfl)]
    exact ⟨_, rfl⟩

section Remade

variable {f : Node → Node} (hf : Remakes f) {n : Node} (qualifier : String)

include hf

theorem Node.AllFit.hasQualifier_map {ns : List Node} (h : ∀ n ∈ ns, n.AllFit) :
    hasQualifier (ns.map f) qualifier = hasQualifier ns qualifier := by
  rw [hasQualifier, hasQualifier, any_map, Bool.eq_iff_iff, any_eq_true, any_eq_true]
  refine exists_congr fun n => and_congr_right fun hn => ?_
  rw [Function.comp_apply, hf.kind]
  by_cases hkind : n.kind = .keyword
  · -- A keyword has nothing below.
    have hsame : f n = n := by
      rw [hf.below n (by simp [hkind]) (by simp [hkind, IsName])]
      exact (h n hn).kind_cases hkind fun _ _ _ _ => rfl
    rw [hsame]
  · rw [beq_false_of_ne hkind, Bool.false_and, Bool.false_and]

/-- The name of a declarator stands in its first part. -/
theorem Node.AllFit.declaratorName?_eq (h : n.AllFit)
    (hkind : n.kind = .declarator ∨ n.kind = .quantifiedIdentifier) :
    (f n).declaratorName?.toList = (n.field 0).map fun m => (f m).text := by
  have hname : ∀ m : Node, m.AllFit → m.kind = .identifier → (f m).name? = some (f m).text := by
    intro m hm hkind
    obtain ⟨t, hleaf⟩ := hm.fits.eq_leaf (.inl hkind)
    obtain ⟨t', heq⟩ := hf.identifier m.id m.span t
    rw [hleaf, hkind, heq]
    rfl
  rw [hf.below n (by rcases hkind with hkind | hkind <;> simp [hkind])
    (by rcases hkind with hkind | hkind <;> simp [hkind, IsName])]
  rcases hkind with hkind | hkind
  · refine h.kind_cases hkind fun _ _ m hm _ _ _ _ _ h => ?_
    have hfit : m.AllFit := h.child (by simp [nodes])
    simp [mapChildren, mapNodes, declaratorName?, nodes,
      hname m hfit (mem_singleton.mp hm)]
  · refine h.kind_cases hkind fun _ _ m hm _ _ h => ?_
    have hfit : m.AllFit := h.child (by simp [nodes])
    simp [mapChildren, mapNodes, declaratorName?, nodes,
      hname m hfit (mem_singleton.mp hm)]

theorem Node.AllFit.declaratorNames_eq {ns : List Node} (h : ∀ n ∈ ns, n.AllFit)
    (hkinds : ∀ n ∈ ns, n.kind = .declarator ∨ n.kind = .quantifiedIdentifier) :
    (ns.map f).filterMap declaratorName? =
      (ns.flatMap (field 0)).map fun m => (f m).text := by
  rw [filterMap_map, filterMap_eq_flatMap_toList, map_flatMap]
  exact flatMap_congr fun n hn => (h n hn).declaratorName?_eq hf (hkinds n hn)

theorem Node.AllFit.memberNames_eq (h : n.AllFit) (hkind : n.kind = .structDeclaration) :
    (f n).memberNames = (n.along [1, 0]).map fun m => (f m).text := by
  rw [hf.below n (by simp [hkind]) (by simp [hkind, IsName])]
  refine h.kind_cases hkind fun _ _ _ _ members _ hkinds _ h => ?_
  have hmembers : ∀ n ∈ members, n.AllFit := fun n hn => h.child (by simp [nodes, hn])
  simp only [mapChildren, map_cons, map_nil, mapNodes, memberNames]
  rw [declaratorNames_eq hf hmembers fun n hn => .inr (mem_singleton.mp (hkinds n hn))]
  simp [along, nodes]

/-- The names that a declaration declares stand in its leaves. -/
theorem Node.AllFit.qualifiedNames_eq (h : n.AllFit) :
    (f n).qualifiedNames qualifier =
      (n.qualifiedLeaves qualifier).map fun m => (f m).text := by
  unfold qualifiedLeaves
  by_cases hlist : n.kind = .declaratorList
  · rw [if_pos hlist, hf.below n (by simp [hlist]) (by simp [hlist, IsName])]
    refine h.kind_cases hlist fun _ _ type htype declarators _ hkinds h => ?_
    have hdeclarators : ∀ n ∈ declarators, n.AllFit := fun n hn => h.child (by simp [nodes, hn])
    have htypeFit : type.AllFit := h.child (by simp [nodes])
    replace htype := mem_singleton.mp htype
    have hremade := hf.below type (by simp [htype]) (by simp [htype, IsName])
    simp only [mapChildren, map_cons, map_nil, mapNodes, hremade]
    clear h hremade
    refine htypeFit.kind_cases htype fun _ _ qualifiers _ _ _ htypeFit => ?_
    have hqualifiers : ∀ n ∈ qualifiers, n.AllFit :=
      fun n hn => htypeFit.child (by simp [nodes, hn])
    simp only [map_cons, map_nil, mapNodes, qualifiedNames]
    rw [hasQualifier_map hf qualifier hqualifiers,
      declaratorNames_eq hf hdeclarators fun n hn => .inl (mem_singleton.mp (hkinds n hn))]
    split <;> simp_all [along, nodes]
  rw [if_neg hlist]
  by_cases hblock : n.kind = .interfaceBlock
  · rw [if_pos hblock, hf.below n (by simp [hblock]) (by simp [hblock, IsName])]
    refine h.kind_cases hblock
      fun _ _ qualifiers _ _ _ members hkinds _ instance' hinstance h => ?_
    have hqualifiers : ∀ n ∈ qualifiers, n.AllFit := fun n hn => h.child (by simp [nodes, hn])
    simp only [mapChildren, map_cons, map_nil, mapNodes, qualifiedNames]
    rw [hasQualifier_map hf qualifier hqualifiers]
    cases instance' with
    | some m =>
      have hm : m.AllFit := h.child (by simp [nodes])
      simp only [Option.map_some]
      rw [hm.declaratorName?_eq hf (.inr (mem_singleton.mp (hinstance m rfl)))]
      split <;> simp_all [along, nodes, isOpenBlock]
    | none =>
      have hmembers : (members.map f).flatMap memberNames =
          (members.flatMap (along [1, 0])).map fun m => (f m).text := by
        rw [flatMap_map, map_flatMap]
        refine flatMap_congr fun n hn => ?_
        have hfit : n.AllFit := h.child (by simp [nodes, hn])
        exact hfit.memberNames_eq hf (mem_singleton.mp (hkinds n hn))
      simp only [Option.map_none]
      rw [hmembers]
      split <;> simp_all [along, nodes, isOpenBlock]
  rw [if_neg hblock, map_nil]
  -- Nothing is read off other declarations.
  have hkind := hf.kind n
  generalize f n = m at hkind
  unfold qualifiedNames
  split
  · exact absurd hkind.symm hlist
  · exact absurd hkind.symm hblock
  · rfl

theorem Node.AllFit.statementNames_eq (h : n.AllFit) :
    (f n).statementNames qualifier =
      (n.statementLeaves qualifier).map fun m => (f m).text := by
  unfold statementLeaves
  by_cases hkind : n.kind = .declarationStatement
  · rw [if_pos hkind, hf.below n (by simp [hkind]) (by simp [hkind, IsName])]
    refine h.kind_cases hkind fun _ _ d _ _ h => ?_
    have hd : d.AllFit := h.child (by simp [nodes])
    simp only [mapChildren, map_cons, map_nil, mapNodes, statementNames]
    rw [hd.qualifiedNames_eq hf]
    simp [nodes]
  · rw [if_neg hkind, map_nil]
    have hsame := hf.kind n
    generalize f n = m at hsame
    unfold statementNames
    split
    · exact absurd hsame.symm hkind
    · rfl

/-- The names that a source declares stand in the leaves of its statements. -/
theorem Node.AllFit.declaredNames_eq (h : n.AllFit) (hkind : n.kind = .program) :
    (f n).declaredNames qualifier =
      (n.children.flatMap (statementLeaves qualifier)).map fun m => (f m).text := by
  rw [hf.below n (by simp [hkind]) (by simp [hkind, IsName])]
  refine h.kind_cases hkind fun _ _ _ statements _ h => ?_
  simp only [mapChildren, map_cons, map_nil, mapNodes, declaredNames,
    Node.statements, children_mk, flatMap_cons, flatMap_nil, append_nil, nodes, nil_append]
  rw [flatMap_map, map_flatMap]
  refine flatMap_congr fun s hs => ?_
  have hfit : s.AllFit := h.child (by simp [nodes, hs])
  exact hfit.statementNames_eq hf qualifier

end Remade

/-! ### Declarations right below the root -/

/-- A name that a declaration declares is declared when the declaration is gone through. -/
theorem Node.AllFit.declares_qualifiedLeaves {d m : Node} (h : d.AllFit) {qualifier : String}
    (hm : m ∈ d.qualifiedLeaves qualifier) :
    d.kind.holdsScopes = false ∧ m ∈ d.preorder ∧ m.kind = .identifier ∧
      .declareVariable m.text m.site ∈ d.occurrences .plain := by
  -- Declarators and names with dimensions are gone through, and then their names are declared.
  have hdeclares : ∀ (path : List Nat) {c : Node}, .visit path .plain ∈ d.plan .plain →
      c ∈ d.along path → c.kind = .declarator ∨ c.kind = .quantifiedIdentifier → m ∈ c.field 0 →
      m ∈ d.preorder ∧ m.kind = .identifier ∧
        .declareVariable m.text m.site ∈ d.occurrences .plain := by
    intro path c hvisit hc hkind hm
    have hmove : .declare .var [0] ∈ c.plan .plain := by
      rcases hkind with hkind | hkind <;> simp [plan_of_kind, hkind, Kind.plan]
    refine ⟨mem_preorder_trans (mem_along hc) (child_mem_preorder (mem_children_iff.mpr ⟨0, hm⟩)),
      ?_, (Node.Reaches.refl.visit hvisit hc).performs h hmove
        (mem_map_of_mem (by simpa [along] using hm))⟩
    have hform := (h.below (mem_along hc)).fits.kind_mem_field hm
    rcases hkind with hkind | hkind <;> rw [hkind] at hform <;> exact mem_singleton.mp hform
  unfold qualifiedLeaves at hm
  split at hm
  · rename_i hkind
    split at hm
    · obtain ⟨c, hc, hm⟩ : ∃ c ∈ d.field 1, m ∈ c.field 0 := by simpa [along] using hm
      have hform := h.fits.kind_mem_field hc
      rw [hkind] at hform
      refine ⟨by rw [hkind]; rfl, hdeclares [1] ?_ (by simpa [along] using hc)
        (.inl (mem_singleton.mp hform)) hm⟩
      simp [plan_of_kind, hkind, Kind.plan, form, range_succ]
    · cases hm
  split at hm
  · rename_i hkind
    have hcall : d.isPlainCall = false := by simp [isPlainCall, hkind]
    refine ⟨by rw [hkind]; rfl, ?_⟩
    split at hm
    · split at hm
      · rename_i hopen
        obtain ⟨x, hx, c, hc, hm⟩ : ∃ x ∈ d.field 3, ∃ c ∈ x.field 1, m ∈ c.field 0 := by
          simpa [along] using hm
        have hxform := h.fits.kind_mem_field hx
        have hcform := (h.child (mem_children_iff.mpr ⟨3, hx⟩)).fits.kind_mem_field hc
        rw [hkind] at hxform
        rw [mem_singleton.mp hxform] at hcform
        exact hdeclares [3, 1] (by simp [Node.plan, hcall, hopen])
          (by simpa [along] using ⟨x, hx, hc⟩) (.inr (mem_singleton.mp hcform)) hm
      · rename_i hopen
        obtain ⟨c, hc, hm⟩ : ∃ c ∈ d.field 5, m ∈ c.field 0 := by simpa [along] using hm
        have hform := h.fits.kind_mem_field hc
        rw [hkind] at hform
        refine hdeclares [5] ?_ (by simpa [along] using hc)
          (.inr (mem_singleton.mp hform)) hm
        simp [Node.plan, hcall, hopen, hkind, Kind.plan, form]
    · cases hm
  · cases hm

namespace Program.BoundAs

variable {p : Program} {tree : Node} {last : NodeId} {b : Names} (h : p.BoundAs tree last b)
  {m : Node} {qualifier : String}

include h

/-- What is read off the declarations is declared in the outermost scope. -/
theorem declared_leaf (hm : m ∈ tree.children.flatMap (statementLeaves qualifier)) :
    (∃ id span t, m = Node.leaf .identifier id span t ∧ m ∈ tree.preorder) ∧
      ∃ before after,
        tree.occurrences .plain = before ++ .declareVariable m.text m.site :: after ∧
        (before.foldl Names.step (Binding.initial tree.span last).names).current = 0 := by
  obtain ⟨s, hs, hm⟩ := mem_flatMap.mp hm
  unfold statementLeaves at hm
  split at hm
  · rename_i hkind
    obtain ⟨d, hd, hm⟩ := mem_flatMap.mp hm
    have hfit := h.fit.child hs
    have hchild := mem_children_iff.mpr ⟨0, hd⟩
    obtain ⟨hscopes, hmd, hidentifier, ho⟩ := (hfit.child hchild).declares_qualifiedLeaves hm
    have hmove : .visit [0] .plain ∈ s.plan .plain := by
      simp [plan_of_kind, hkind, Kind.plan, form, range_succ]
    have hreaches : s.Reaches .plain d .plain :=
      Node.Reaches.refl.visit hmove (by simpa [along] using hd)
    obtain ⟨inner, rest, hinner⟩ := append_of_mem ((hreaches.sublist hfit).subset ho)
    obtain ⟨l₁, l₂, hchildren⟩ := append_of_mem hs
    constructor
    · have hmem : m ∈ tree.preorder :=
        mem_preorder_of_mem_child hs (mem_preorder_of_mem_child hchild hmd)
      obtain ⟨t, hleaf⟩ := (h.fit.below hmem).fits.eq_leaf (.inl hidentifier)
      rw [hidentifier] at hleaf
      exact ⟨_, _, t, hleaf, hmem⟩
    · refine ⟨l₁.flatMap (Node.occurrences .plain) ++ inner,
        rest ++ l₂.flatMap (Node.occurrences .plain), ?_,
        h.current_of_flat hchildren fun o ho => ?_⟩
      · rw [h.fit.occurrences_program h.kind, hchildren, flatMap_append, flatMap_cons, hinner]
        simp
      · exact hfit.flat_declaration hkind hd hscopes (by rw [hinner]; exact mem_append_left _ ho)
  · cases hm

/-- So it is listed there, unless it is a built-in variable. -/
theorem refers_declared (hm : m ∈ tree.children.flatMap (statementLeaves qualifier))
    (hname : Vocabulary.isBuiltinVariable m.text = false) :
    p.scopes.root.Refers .vars m.text m.id := by
  obtain ⟨-, before, after, hos, hcurrent⟩ := h.declared_leaf hm
  have hadded := Names.mem_added_declare (b := before.foldl Names.step
    (Binding.initial tree.span last).names) hname m.site
  rw [hcurrent] at hadded
  exact h.root_refers (h.mem_listing hos hadded)

/-- Names of built-in variables are not listed. -/
theorem not_isBuiltinVariable {x : String} {i : NodeId} (href : p.scopes.Refers .vars x i) :
    Vocabulary.isBuiltinVariable x = false := by
  obtain ⟨j, hlisted⟩ := ScopeTree.refers_iff_listing.mp href
  obtain ⟨_, _, _, _, hadded⟩ := Names.mem_addedAll.mp ((h.listing .vars).mem_iff.mp hlisted)
  exact (Names.added_vars hadded).choose_spec.2.1

/-- The entry under which a node is listed. -/
theorem entry_of_refers {x : String} {i : NodeId} (href : p.scopes.root.Refers .vars x i) :
    ∃ e, p.scopes.root.vars.get? x = some e ∧ i ∈ e.references := by
  obtain ⟨ids, hmem, hi⟩ := href
  obtain ⟨⟨name, e⟩, he, heq⟩ := mem_map.mp hmem
  cases heq
  have hroot := h.settled _ (ScopeTree.mem_of_get? (ScopeTree.get?_zero h.valid.nonempty))
  exact ⟨e, Registry.get?_of_mem (hroot.unique .var) he, hi⟩

/-- The text of a leaf after a renaming of the variables of the outermost scope. -/
theorem text_relabel_declared (hm : m ∈ tree.children.flatMap (statementLeaves qualifier))
    (f : String → String) :
    (m.relabel (p.root.renamed p.scopes.root .vars (Mangle.ofFunction f) ()).1).text =
      if Vocabulary.isBuiltinVariable m.text then m.text else f m.text := by
  have hscope := ScopeTree.mem_of_get? (ScopeTree.get?_zero h.valid.nonempty)
  have hserves := h.serves hscope (show RenameTarget.vars ≠ .types by simp)
  obtain ⟨⟨id, span, t, rfl, hmem⟩, -⟩ := h.declared_leaf hm
  have hroot := h.identifier_mem hmem
  rw [relabel_leaf (.inl rfl)]
  change (Registry.get? id _).getD t.text = if Vocabulary.isBuiltinVariable t.text then _ else _
  split
  · -- A leaf with a new name is listed with the name that it has.
    rename_i hbuiltin
    cases hget : (p.root.renamed p.scopes.root .vars (Mangle.ofFunction f) ()).1.get? id with
    | none => rfl
    | some name =>
      obtain ⟨c, hc, leaf, hleaf, heq⟩ := hserves.mem_renamed (Registry.mem_of_get? hget)
      obtain ⟨hid, -⟩ := Prod.mk.inj heq
      obtain ⟨hmem', _, _, t', rfl, htext⟩ := h.leaf_of_reference hscope (by simp) hc hleaf
      have hsame := h.distinct.eq_of_id hroot hmem' hid
      cases hsame
      have hlisted := Scope.refers_of_nameOf? (Rename.mem_calls.mp hc).2
      rw [htext, h.not_isBuiltinVariable ⟨_, hscope, hlisted⟩] at hbuiltin
      cases hbuiltin
  · rename_i hbuiltin
    have href := h.refers_declared hm (Bool.eq_false_iff.mpr hbuiltin)
    obtain ⟨c, hc, hid⟩ := (hserves.listed _ _).mp href
    obtain rfl := h.distinct.eq_of_id (Rename.mem_calls.mp hc).1 hroot hid
    exact congrArg (fun o => Option.getD o t.text) (hserves.get?_renamed f hc rfl)

end Program.BoundAs

/-- The registries of a program are true of its tree. -/
theorem Program.exists_matchesTree {text : String} {options : Options} {p : Program}
    (hp : Program.parse text options = .ok p) :
    ∃ tree last b, p.BoundAs tree last b ∧ b.MatchesTree p.root := by
  obtain ⟨tree, b, htree, hbind, rfl⟩ := Program.parse_eq_ok hp
  have h := Program.boundAs_of_ofTree htree hbind
  have hread := Program.readNumbered_of_readTree htree
  refine ⟨_, _, _, h, ?_⟩
  rw [h.names]
  exact (Names.MatchesTree.initial _ _ _).foldl h.distinct fun o ho =>
    h.matchesTree (Program.fromSource_of_readNumbered hread) ho

/-- **Declared names follow a renaming.** After the variables of the outermost scope of a program
were renamed by a function of their names, the names that the program declares with a qualifier are
those from before with the function applied, in the same order, those of built-in variables apart.
Each of these has an entry in that scope, with a declaration. -/
theorem Program.declaredNames_rename {text : String} {options : Options} {p : Program}
    (hp : Program.parse text options = .ok p) (qualifier : String) (f : String → String) :
    (p.root.rename p.scopes.root .vars (Mangle.ofFunction f) ()).error = none ∧
      (p.root.rename p.scopes.root .vars (Mangle.ofFunction f) ()).root.declaredNames qualifier =
        ((p.root.declaredNames qualifier).map fun x =>
          if Vocabulary.isBuiltinVariable x then x else f x) ∧
      ∀ x ∈ p.root.declaredNames qualifier, Vocabulary.isBuiltinVariable x = false →
        ∃ e, p.scopes.root.vars.get? x = some e ∧ e.declaration.isSome = true := by
  obtain ⟨tree, last, b, h, hmatches⟩ := Program.exists_matchesTree hp
  have hscope := ScopeTree.mem_of_get? (ScopeTree.get?_zero h.valid.nonempty)
  obtain ⟨hdone, hroot, -⟩ :=
    (h.serves hscope (show RenameTarget.vars ≠ .types by simp)).rename_eq (Mangle.ofFunction f) ()
  have hsame : ∀ m ∈ tree.children.flatMap (Node.statementLeaves qualifier),
      m.exchangeCallees b.callees = m := by
    intro m hm
    obtain ⟨⟨_, _, _, rfl, -⟩, -⟩ := h.declared_leaf hm
    exact exchangeCallees_leaf b.callees _ _ _ _
  have hbefore : p.root.declaredNames qualifier =
      (tree.children.flatMap (Node.statementLeaves qualifier)).map Node.text := by
    rw [h.root, h.fit.declaredNames_eq (remakes_exchangeCallees b.callees) qualifier h.kind]
    exact map_congr_left fun m hm => by rw [hsame m hm]
  refine ⟨hdone, ?_, fun x hx hname => ?_⟩
  · have hafter := h.fit.declaredNames_eq ((remakes_exchangeCallees b.callees).relabel
      (p.root.renamed p.scopes.root .vars (Mangle.ofFunction f) ()).1) qualifier h.kind
    rw [← h.root] at hafter
    rw [hroot, hafter, hbefore, map_map]
    refine map_congr_left fun m hm => ?_
    rw [hsame m hm]
    exact h.text_relabel_declared hm f
  · rw [hbefore] at hx
    obtain ⟨m, hm, rfl⟩ := mem_map.mp hx
    obtain ⟨e, he, hi⟩ := h.entry_of_refers (h.refers_declared hm hname)
    obtain ⟨⟨_, _, _, -, hmem⟩, before, after, hos, -⟩ := h.declared_leaf hm
    refine ⟨e, he, ?_⟩
    have hentry : e ∈ b.scopes.bindings := by
      rw [← h.scopes]
      exact mem_flatMap.mpr ⟨_, hscope, mem_map_of_mem (Registry.mem_of_get? he)⟩
    have hdeclares : p.root.declaresAt m.id = true :=
      (h.isDeclared_iff hmem).mpr (h.fit.isDeclared h.ids.nodup hmem (by simp [hos]))
    rw [(hmatches.bindings e hentry).declaration, isSome_head?]
    exact ne_nil_of_mem (mem_filter.mpr ⟨hi, hdeclares⟩)

/-- Variables and the member of a block without an instance are renamed, a built-in one is not. -/
theorem Program.declaredNames_rename_block :
    ∃ p, Program.parse "uniform int a, gl_b; uniform B \x7b int c; \x7d; int d;" Options.default =
        .ok p ∧
      p.root.declaredNames "uniform" = ["a", "gl_b", "c"] ∧
      (p.root.rename p.scopes.root .vars (Mangle.ofFunction fun x => "u_" ++ x)
        ()).root.declaredNames "uniform" = ["u_a", "gl_b", "u_c"] := by
  refine Program.exists_of_parse (fun p hparse hnames => ⟨hparse, hnames, ?_⟩)
    (P := fun p => p.root.declaredNames "uniform" = ["a", "gl_b", "c"]) ?_
  · rw [(Program.declaredNames_rename hparse "uniform" fun x => "u_" ++ x).2.1, hnames]
    decide
  · decide +kernel

end ShaderSource
