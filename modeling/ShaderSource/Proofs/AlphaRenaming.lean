import ShaderSource.Proofs.Reparsing
import ShaderSource.Proofs.ScopeRenaming

/-!
# Renaming variables keeps what names mean

If the variables of a scope get names that stand nowhere in the source, different ones for different
variables, then the text of the renamed tree is bound like the source: every use is resolved to the
scope it was resolved to, so that all scopes list the same variables and types with the same nodes,
but for the names of the variables that were renamed.

An identifier is renamed by what the scope lists, and thus in all its occurrences at once. For this
an identifier that is gone through twice has to be registered in one scope. So blocks without
instances have to stand in declarations of their own right below the root.

## Main results

* `Program.BoundAs.follows`: each occurrence in the renamed tree is the one in the tree, with the
  new name exactly if it is registered in the scope.
* `Program.rename_preserves_scopes`: the scopes of the renamed program.
-/

namespace ShaderSource

open Binding List Names Node Vocabulary

variable {j : ScopeId} {before after : List Occurrence} {o : Occurrence} {span : Option Span}
  {texts : List String}

/-! ### Tokens and identities -/

theorem Part.tokens_subset {p : Part} {c : Node} (hc : c ∈ p.nodes) : c.tokens ⊆ p.tokens := by
  have hseparated : ∀ (ns : List Node) (ts : List Token), c ∈ ns →
      c.tokens ⊆ separatedTokens ns ts := by
    intro ns
    induction ns with
    | nil => intro ts hc; cases hc
    | cons n ns ih =>
      intro ts hc t ht
      rw [separatedTokens]
      rcases mem_cons.mp hc with rfl | hc
      · simp [ht]
      · exact mem_append_right _ (ih ts.tail hc ht)
  cases p with
  | text | token | optToken => simp [Part.nodes] at hc
  | child n =>
    obtain rfl : c = n := by simpa [Part.nodes] using hc
    exact Subset.refl _
  | optChild n =>
    obtain rfl : n = some c := by simpa [Part.nodes, eq_comm] using hc
    exact Subset.refl _
  | list ns =>
    intro t ht
    rw [Part.tokens, Node.tokensAll_eq]
    exact mem_flatMap.mpr ⟨c, hc, ht⟩
  | separated ns ts => exact hseparated ns ts hc
  | branch word n =>
    obtain rfl : n = some c := by simpa [Part.nodes, eq_comm] using hc
    intro t ht
    cases word <;> simp [Part.tokens, ht]

/-- The tokens of a node are tokens of the tree. -/
theorem Node.tokens_subset {n m : Node} (hm : m ∈ n.preorder) : m.tokens ⊆ n.tokens := by
  refine topDown (P := fun m => m.tokens ⊆ n.tokens) (Subset.refl _)
    (fun m _ ih c hc => Subset.trans (fun t ht => ?_) ih) hm
  obtain ⟨k, i, s, ps⟩ := m
  rw [children_mk, mem_flatMap] at hc
  obtain ⟨p, hp, hc⟩ := hc
  rw [tokens_mk]
  exact mem_flatMap.mpr ⟨p, hp, Part.tokens_subset hc ht⟩

theorem Node.ids_bare (n : Node) : n.bare.ids = n.ids := by
  induction n using induction with
  | h n ih =>
    obtain ⟨k, i, s, ps⟩ := n
    have hchildren : (Node.mk k i s ps).bare.children =
        (Node.mk k i s ps).children.map bare := by
      rw [bare, retoken_mk, children_mk, children_mk, flatMap_map,
        map_flatMap]
      exact flatMap_congr fun p _ => Part.nodes_retoken _ p
    rw [ids_eq, ids_eq, hchildren, flatMap_map]
    congr 1
    exact flatMap_congr ih

/-! ### New names of variables -/

/-- The names of the variables of a scope. -/
def Scope.varNames (s : Scope) : List String :=
  s.vars.map Prod.fst

/-- The function gives the variables of the scope new names: different identifiers that are not
reserved for built-in variables and are none of the given texts. -/
structure Scope.Refreshes (s : Scope) (texts : List String) (f : String → String) : Prop where
  injective : ∀ x ∈ s.varNames, ∀ y ∈ s.varNames, f x = f y → x = y
  identifier : ∀ x ∈ s.varNames, Scan.isIdentifier (f x) = true
  notBuiltin : ∀ x ∈ s.varNames, isBuiltinVariable (f x) = false
  fresh : ∀ x ∈ s.varNames, f x ∉ texts

theorem Scope.varNames_of_refers {s : Scope} {x : String} {i : NodeId} (h : s.Refers .vars x i) :
    x ∈ s.varNames := by
  obtain ⟨ids, hentry, -⟩ := h
  obtain ⟨e, he, heq⟩ := mem_map.mp hentry
  cases heq
  exact mem_map_of_mem he

/-- Variables get the new names of what they refer to. -/
theorem Node.Serves.get?_variable {root : Node} {scope : Scope} (h : root.Serves scope .vars)
    (f : String → String) (i : NodeId) :
    (root.renamed scope .vars (Mangle.ofFunction f) ()).1.get? i =
      (scope.nameOf? .vars i).map f := by
  cases hname : scope.nameOf? .vars i with
  | some x =>
    obtain ⟨n, hn, rfl, leaf, hleaf⟩ := h.bears (Scope.refers_of_nameOf? hname)
    have hget := h.get?_renamed f (Rename.mem_calls.mpr ⟨hn, hname⟩) hleaf.namedLeaf
    cases hleaf
    exact hget
  | none =>
    refine Option.eq_none_iff_forall_not_mem.mpr fun y hget => ?_
    obtain ⟨n, -, x, href, leaf, hleaf, rfl⟩ := h.bears_of_renamed hget
    cases hleaf
    obtain ⟨y, hy⟩ := Scope.exists_nameOf? href
    rw [hy] at hname
    cases hname

namespace Program.BoundAs

variable {p : Program} {tree : Node} {last : NodeId} {b : Names} (h : p.BoundAs tree last b)
  {s : ScopeId} {scope : Scope} {x : String} {i : NodeId} {f : String → String}

include h

/-- The variables of a scope are those that the occurrences add to it. -/
theorem refers_iff_added (hscope : p.scopes.get? s = some scope) :
    scope.Refers .vars x i ↔ ∃ before o after, tree.occurrences .plain = before ++ o :: after ∧
      (s, x, i) ∈
        (before.foldl step (initial tree.span last).names).added .vars o := by
  rw [← mem_addedAll, ← (h.listing .vars).mem_iff, Scope.refers_iff_listing,
    ScopeTree.listing, mem_flatMap]
  constructor
  · intro hmem
    refine ⟨scope, ScopeTree.mem_of_get? hscope, ?_⟩
    rw [h.valid.ids hscope]
    exact mem_map_of_mem hmem
  · rintro ⟨scope', hscope', hmem⟩
    obtain ⟨e, he, heq⟩ := mem_map.mp hmem
    obtain ⟨rfl, rfl⟩ := Prod.mk.inj heq
    have hget := h.valid.get?_of_mem hscope'
    rw [hscope] at hget
    cases hget
    exact he

/-- A variable of which something is added stands in the tree. -/
theorem leaf_of_added
    (hos : tree.occurrences .plain = before ++ o :: after)
    (hadded : (j, x, i) ∈
      (before.foldl step (initial tree.span last).names).added .vars o) :
    ∃ span t, Node.leaf .identifier i span t ∈ tree.preorder ∧ t.text = x := by
  have ho : o ∈ tree.occurrences .plain := by simp [hos]
  obtain ⟨site, rfl, -, ⟨rfl, -⟩ | ⟨rfl, -⟩⟩ := added_vars hadded
  all_goals
    cases occurrence_about h.fit ho
    exact ⟨_, _, by assumption, rfl⟩

/-- Whatever is registered at some time is so in the end. -/
theorem knowsVar
    (hos : tree.occurrences .plain = before ++ after)
    (hknown : (before.foldl step (initial tree.span last).names).scopes.KnowsVar
      j x) : p.scopes.KnowsVar j x := by
  have hvalid := (valid_initial tree.span last).foldl before
  rw [h.scopes, h.names, hos, foldl_append]
  exact (knowsVar_foldl hvalid after).mpr (.inl hknown)

/-- The name of a variable stands in the tree. -/
theorem leaf_of_knowsVar (hknown : p.scopes.KnowsVar j x) :
    ∃ i span t, Node.leaf .identifier i span t ∈ tree.preorder ∧ t.text = x := by
  rw [h.scopes, h.names] at hknown
  rcases (knowsVar_foldl (valid_initial tree.span last) _).mp hknown with
    ⟨sc, hsc, hmem⟩ | ⟨i, hadded⟩
  · -- Nothing is registered at first.
    cases j with
    | zero =>
      cases hsc
      cases hmem
    | succ j => cases hsc
  · obtain ⟨before, o, after, hos, hadded⟩ := mem_addedAll.mp hadded
    obtain ⟨span, t, hleaf, htext⟩ := h.leaf_of_added hos hadded
    exact ⟨i, span, t, hleaf, htext⟩

/-- Names of variables are moved nowhere. -/
theorem get?_moveNames_variable (names : Registry NodeId String) {t : Token}
    (hleaf : Node.leaf .identifier i span t ∈ tree.preorder) :
    (tree.moveNames b.callees names).get? i = names.get? i := by
  have hnone : tree.calleeFor b.callees i = none := by
    cases hfor : tree.calleeFor b.callees i with
    | none => rfl
    | some fresh =>
      obtain ⟨call, hcall, hplain, -, m, hm, hid⟩ := mem_of_calleeFor hfor
      have hsame := Distinct.eq_of_id h.ids.nodup
        (mem_preorder_trans hcall (mem_along hm)) hleaf hid
      have hkind := kind_calleeName hplain hm
      rw [hsame] at hkind
      cases hkind
  have hget := h.get?_moveNames names hleaf
  rwa [show (Node.leaf .identifier i span t).id = i from rfl, hnone] at hget

section Follow

variable (hscope : p.scopes.get? s = some scope)

include hscope

/-- A name is listed at a node under the text of the node. -/
theorem name_eq {t : Token} (hleaf : Node.leaf .identifier i span t ∈ tree.preorder)
    (href : scope.Refers .vars x i) : t.text = x := by
  obtain ⟨before, o, after, hos, hadded⟩ := (h.refers_iff_added hscope).mp href
  obtain ⟨span', t', hleaf', rfl⟩ := h.leaf_of_added hos hadded
  have hsame := Distinct.eq_of_id h.ids.nodup hleaf hleaf' rfl
  cases hsame
  rfl

/-- The new names suit the tree. -/
theorem suits_refreshed (hf : scope.Refreshes texts f) :
    tree.Suits b (p.root.renamed scope .vars (Mangle.ofFunction f) ()).1 := by
  refine h.suits_renamed (ScopeTree.mem_of_get? hscope) (fun new hnew => ?_) (.inl rfl)
  rw [Mangle.ofFunction_answers] at hnew
  obtain ⟨⟨x, n⟩, hc, rfl⟩ := mem_map.mp hnew
  have href := Scope.refers_of_nameOf? (Rename.mem_calls.mp hc).2
  exact hf.identifier x (Scope.varNames_of_refers href)

variable (hblocks : tree.BlocksOnTop) (hf : scope.Refreshes texts f)
  (htexts : ∀ i span t, Node.leaf .identifier i span t ∈ tree.preorder → ∀ y ∈ scope.varNames,
    f y ≠ t.text)

include hblocks hf htexts

/-- The new name of a variable, which is registered in a scope `j` at some time. -/
theorem gives (hos : tree.occurrences .plain = before ++ o :: after)
    (hadded : (j, x, i) ∈
      (before.foldl step (initial tree.span last).names).added .vars o) :
    let x' := ((scope.nameOf? .vars i).map f).getD x
    isBuiltinVariable x = false ∧ isBuiltinVariable x' = false ∧
      (before.foldl step (initial tree.span last).names).scopes.Gives f s j x x' := by
  obtain ⟨-, -, hx, -⟩ := added_vars hadded
  obtain ⟨span, t, hleaf, rfl⟩ := h.leaf_of_added hos hadded
  have hserves := h.serves (ScopeTree.mem_of_get? hscope) (show RenameTarget.vars ≠ .types by simp)
  -- Whatever the scope registers at this time, it does so in the end.
  have hknown : ∀ k y, (before.foldl step
      (initial tree.span last).names).scopes.KnowsVar k y → p.scopes.KnowsVar k y :=
    fun k y hknown => h.knowsVar hos hknown
  have hnames : ∀ y, (before.foldl step
      (initial tree.span last).names).scopes.KnowsVar s y → y ∈ scope.varNames := by
    intro y hy
    obtain ⟨scope', hscope', hmem⟩ := hknown s y hy
    rw [hscope] at hscope'
    cases hscope'
    exact hmem
  by_cases hj : j = s
  · subst hj
    have href : scope.Refers .vars t.text i :=
      (h.refers_iff_added hscope).mpr ⟨before, o, after, hos, hadded⟩
    have hmem := Scope.varNames_of_refers href
    rw [hserves.retains.nameOf?_eq_some.mpr href]
    refine ⟨hx, hf.notBuiltin _ hmem, ?_⟩
    exact
      { name := by simp
        apart := fun _ k hk heq => hf.injective k (hnames k hk) _ hmem heq
        fresh := fun _ k hk => by
          obtain ⟨i', span', t', hleaf', htext⟩ := h.leaf_of_knowsVar (hknown k _ hk)
          exact absurd htext.symm (htexts i' span' t' hleaf' _ hmem)
        other := fun hne => absurd rfl hne }
  · have hnone : scope.nameOf? .vars i = none := by
      refine Option.eq_none_iff_forall_not_mem.mpr fun y hy => ?_
      obtain ⟨before', o', after', hos', hadded'⟩ :=
        (h.refers_iff_added hscope).mp (Scope.refers_of_nameOf? hy)
      exact hj (h.one_scope hblocks hos hos' hadded hadded')
    rw [hnone]
    refine ⟨hx, hx, ?_⟩
    exact
      { name := by simp [hj]
        apart := fun heq => absurd heq hj
        fresh := fun heq => absurd heq hj
        other := fun _ k hk => htexts i span t hleaf k (hnames k hk) }

/-- Each occurrence in the renamed tree is the one in the tree, with the new name exactly if it is
registered in the scope. -/
theorem follows {o' : Occurrence} (hos : tree.occurrences .plain = before ++ o :: after)
    (hrenames : o.Renames (tree.moveNames b.callees
      (p.root.renamed scope .vars (Mangle.ofFunction f) ()).1) o') :
    (before.foldl step (initial tree.span last).names).Follows f s o o' := by
  have ho : o ∈ tree.occurrences .plain := by simp [hos]
  have hserves := h.serves (ScopeTree.mem_of_get? hscope) (show RenameTarget.vars ≠ .types by simp)
  have hsuits := h.suits_refreshed hscope hf
  -- A variable of a built-in name is not registered.
  have hbuiltin : ∀ {i : NodeId} {span : Option Span} {t : Token},
      Node.leaf .identifier i span t ∈ tree.preorder →
      isBuiltinVariable t.text = true → scope.nameOf? .vars i = none := by
    intro i span t hleaf hname
    refine Option.eq_none_iff_forall_not_mem.mpr fun y hy => ?_
    have href := Scope.refers_of_nameOf? hy
    obtain ⟨before', o', after', hos', hadded'⟩ := (h.refers_iff_added hscope).mp href
    obtain ⟨-, -, hy', -⟩ := added_vars hadded'
    rw [← h.name_eq hscope hleaf href, hname] at hy'
    cases hy'
  cases hrenames with
  | enter => exact .enter
  | leave => exact .leave
  | declareFunction => exact .declareFunction
  | defineFunction => exact .defineFunction
  | declareType hid =>
    rw [h.keeps_type hsuits (.inl ho)]
    exact .declareType hid
  | useType hid =>
    rw [h.keeps_type hsuits (.inr ho)]
    exact .useType hid
  | @declareVariable x site site' hid =>
    obtain ⟨span, t, hleaf, rfl⟩ : ∃ span t,
        Node.leaf .identifier site.id span t ∈ tree.preorder ∧ t.text = x := by
      cases occurrence_about h.fit ho with
      | declareVariable hleaf => exact ⟨_, _, hleaf, rfl⟩
    rw [h.get?_moveNames_variable _ hleaf, hserves.get?_variable]
    cases hname : isBuiltinVariable t.text with
    | true =>
      rw [hbuiltin hleaf hname]
      exact .declareBuiltin hname
    | false =>
      obtain ⟨hx, hx', hgives⟩ := h.gives hscope hblocks hf htexts hos
        (mem_added_declare hname site)
      exact .declareVariable hid hx hx' hgives
  | @useVariable x site site' hid =>
    obtain ⟨span, t, hleaf, rfl⟩ : ∃ span t,
        Node.leaf .identifier site.id span t ∈ tree.preorder ∧ t.text = x := by
      cases occurrence_about h.fit ho with
      | useVariable hleaf => exact ⟨_, _, hleaf, rfl⟩
    rw [h.get?_moveNames_variable _ hleaf, hserves.get?_variable]
    cases hname : isBuiltinVariable t.text with
    | true =>
      rw [hbuiltin hleaf hname]
      exact .useBuiltin hname
    | false =>
      obtain ⟨hx, hx', hgives⟩ := h.gives hscope hblocks hf htexts hos
        (mem_added_use hname site)
      exact .useVariable hid hx hx' hgives
  | @call x callee callee' arguments arguments' site site' hcallee hsite =>
    have hnone : (tree.moveNames b.callees
        (p.root.renamed scope .vars (Mangle.ofFunction f) ()).1).get? callee.id = none := by
      rw [h.get?_callee hsuits ho, Option.bind_eq_none_iff]
      intro fresh hexchanged
      rw [hserves.get?_variable, Option.map_eq_none_iff]
      refine Option.eq_none_iff_forall_not_mem.mpr fun y hy => ?_
      have href := Scope.refers_of_nameOf? hy
      exact h.fresh hexchanged (h.variable_mem ⟨scope, ScopeTree.mem_of_get? hscope, href⟩)
    rw [hnone]
    exact .call hcallee hsite

end Follow

end Program.BoundAs

/-- **Renaming variables keeps what names mean.** Let blocks without instances be declared right
below the root of a program, and let the variables of a scope get new names that stand nowhere in
its source. Then the text of the renamed tree is read, with the same options, as that tree, with the
same identities, and all scopes register the same variables and types, with the same declarations
and references in the same order, but for the new names of the variables of that scope. -/
theorem Program.rename_preserves_scopes {text : String} {options : Options} {p : Program}
    (hp : Program.parse text options = .ok p) (hstrict : options.strict = false)
    (hblocks : p.root.BlocksOnTop) {s : ScopeId} {scope : Scope}
    (hscope : p.scopes.get? s = some scope) {f : String → String}
    (hf : scope.Refreshes ((Lexemes.ofString text).body.toList.map Lexeme.text) f) :
    (p.root.rename scope .vars (Mangle.ofFunction f) ()).error = none ∧
      ∃ p', Program.parse (p.root.rename scope .vars (Mangle.ofFunction f) ()).root.source
          options = .ok p' ∧
        p'.root.same (p.root.rename scope .vars (Mangle.ofFunction f) ()).root = true ∧
        p'.root.ids = (p.root.rename scope .vars (Mangle.ofFunction f) ()).root.ids ∧
        p'.scopes.size = p.scopes.size ∧
        ∀ i sc, p.scopes.get? i = some sc → ∃ sc', p'.scopes.get? i = some sc' ∧
          sc'.types = sc.types ∧
          sc'.vars = if i = s then sc.vars.map fun e => (f e.1, e.2) else sc.vars := by
  obtain ⟨tree, b, htree, hbind, rfl⟩ := Program.parse_eq_ok hp
  have hbound := Program.boundAs_of_ofTree htree hbind
  have hsuits := hbound.suits_refreshed hscope hf
  have hserves := hbound.serves (ScopeTree.mem_of_get? hscope)
    (show RenameTarget.vars ≠ .types by simp)
  obtain ⟨herror, hroot, -⟩ := hserves.rename_eq (Mangle.ofFunction f) ()
  obtain ⟨p', hparse, hbare⟩ := Program.reparse_of_suits htree hbind hstrict hsuits
  obtain ⟨tree', b', htree', hbind', hparse', hrenames, hlast, -⟩ :=
    Program.reread_of_suits htree hbind hstrict hsuits
  obtain rfl := Except.ok.inj (hparse.symm.trans hparse')
  -- No name in the tree is a new name.
  have htexts : ∀ i span t, Node.leaf .identifier i span t ∈ (tree.number 0).1.preorder →
      ∀ y ∈ scope.varNames, f y ≠ t.text := by
    intro i span t hleaf y hy heq
    have ht : t ∈ (Node.leaf .identifier i span t).tokens := by
      simp [Node.leaf, tokens_mk, Part.tokens]
    have hmem := tokens_subset hleaf ht
    rw [tokens_number, (readTree_yields htree).1] at hmem
    rcases mem_cons.mp hmem with rfl | hmem
    · have hidentifier := hf.identifier y hy
      rw [heq] at hidentifier
      cases hidentifier
    · obtain ⟨l, hl, rfl⟩ := mem_map.mp hmem
      exact hf.fresh y hy (heq ▸ mem_map_of_mem hl)
  have hrenamed : b.names.Renamed f s b'.names := by
    have hbound' := Program.boundAs_of_ofTree htree' hbind'
    rw [hbound.names, hbound'.names, hlast]
    refine Names.Renamed.foldl (hrenames.occurrences hbound.fit hbound'.fit .plain)
      (Names.renamed_initial f s _ _ _) (Names.valid_initial _ _) (Names.valid_initial _ _) ?_
    intro before o after o' hos hrenames
    exact hbound.follows hscope (hbound.blocksOnTop hblocks) hf htexts hos hrenames
  rw [hroot]
  refine ⟨herror, _, hparse, same_of_bare hbare, ?_, hrenamed.scopes.size, fun i sc hsc => ?_⟩
  · rw [← ids_bare, hbare, ids_bare]
  · obtain ⟨sc', hsc', hsame⟩ := hrenamed.scopes.scopes i sc hsc
    refine ⟨sc', hsc', hsame.types, ?_⟩
    rw [hsame.vars]
    split
    · rfl
    · exact Registry.mapKeys_id _

/-- Identities tell where blocks stand. -/
theorem Node.Distinct.blocksOnTop {root : Node} (h : root.Distinct)
    (hall : ((root.preorder.filter isOpenBlock).map Node.id).all
      ((root.children.flatMap children).map Node.id).contains = true) : root.BlocksOnTop := by
  intro block hblock hopen
  have hid := all_eq_true.mp hall block.id
    (mem_map_of_mem (mem_filter.mpr ⟨hblock, hopen⟩))
  obtain ⟨c, hc, hid⟩ := mem_map.mp (contains_iff_mem.mp hid)
  obtain ⟨d, hd, hc⟩ := mem_flatMap.mp hc
  have hmem := mem_preorder_of_mem_child hd
    (child_mem_preorder hc)
  obtain rfl := h.eq_of_id hmem hblock hid
  exact ⟨d, hd, hc⟩

/-- A scope with variables that others hide or are hidden by, and with one that is used before
anything declares it. -/
theorem Program.rename_preserves_scopes_shadowing :
    ∃ p scope p',
      Program.parse ("uniform B \x7b float a[n]; \x7d; int n; " ++
        "int g(int x) \x7b y = n; \x7b int x = n, n = x; \x7d int n = x; return n + y; \x7d")
        Options.default = .ok p ∧
      p.scopes.get? 1 = some scope ∧
      (p.root.rename scope .vars (Mangle.ofFunction ("v_" ++ ·)) ()).root.source =
        "uniform B \x7b float a[n]; \x7d; int n; " ++
        "int g(int v_x) \x7b v_y = n; \x7b int x = n, n = x; \x7d int v_n = v_x; " ++
        "return v_n + v_y; \x7d" ∧
      Program.parse (p.root.rename scope .vars (Mangle.ofFunction ("v_" ++ ·)) ()).root.source
        Options.default = .ok p' ∧
      ∀ i sc, p.scopes.get? i = some sc → ∃ sc', p'.scopes.get? i = some sc' ∧
        sc'.types = sc.types ∧
        sc'.vars = if i = 1 then sc.vars.map fun e => ("v_" ++ e.1, e.2) else sc.vars := by
  refine Program.exists_of_parse (fun p hparse
      (h : p.scopes.get? 1 = some ((p.scopes.get? 1).getD default) ∧
        ((p.root.preorder.filter Node.isOpenBlock).map Node.id).all
          ((p.root.children.flatMap Node.children).map Node.id).contains = true ∧
        ((p.scopes.get? 1).getD default).varNames = ["x", "y", "n"] ∧ _) =>
    have hf : ((p.scopes.get? 1).getD default).Refreshes
        ((Lexemes.ofString ("uniform B \x7b float a[n]; \x7d; int n; " ++
          "int g(int x) \x7b y = n; \x7b int x = n, n = x; \x7d int n = x; " ++
          "return n + y; \x7d")).body.toList.map Lexeme.text) ("v_" ++ ·) := by
      constructor <;> rw [h.2.2.1] <;> decide +kernel
    have ⟨_, _, _, hbound⟩ := Program.boundAs hparse
    have ⟨_, p', hparse', _, _, _, hscopes⟩ := Program.rename_preserves_scopes hparse rfl
      (hbound.distinct.blocksOnTop h.2.1) h.1 hf
    ⟨_, p', hparse, h.1, h.2.2.2, hparse', hscopes⟩) ?_
  decide +kernel

end ShaderSource
