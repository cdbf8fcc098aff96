import ShaderSource.Proofs.ProgramRenaming
import ShaderSource.Proofs.Pruning

/-!
# Renaming what is left of a tree

The registries of a program list the nodes of the tree that was read. Visits that remove nodes do
not tell the registries, so a registry may list nodes that are gone. A renaming then renames what is
left: each reference that is still in the tree has its leaf, since from a reference to its leaf
there are only nodes that cannot be removed, and the leaf gets the name that is given to the
reference. Afterwards the renaming fails with a name that is listed with a node that is gone; it
succeeds if there is none. It fails in no other way.

## Main results

* `Node.LeftOf.bears`: a reference that is left has its name in the leaf that it had.
* `Program.Pruned.retains`: after any removals, the references that are left have their leaves.
* `Program.rename_pruned`: what renaming variables and functions does after removals.
-/

namespace ShaderSource

open List

variable {span : Option Span} {target : RenameTarget} {c : String × Node}

/-! ### References that are left -/

section LeftOf

variable {allowed : Kind → SlotKind → Prop} {root root' n n' : Node}

theorem Node.LeftOf.eq_leaf {kind : Kind} {id : NodeId} {t : Token}
    (h : n'.LeftOf allowed (Node.leaf kind id span t)) : n' = Node.leaf kind id span t := by
  obtain ⟨qs, rfl, hparts⟩ := h.inv
  cases hparts with
  | cons hpart hrest =>
    cases hrest
    cases hpart with
    | alike h =>
      cases h
      rfl

/-- A node that must be there is left. -/
theorem Part.LeftOf.child {kind : Kind} {c : Node} {qs ps : List Part}
    (h : List.Forall₂ (Part.LeftOf allowed kind) qs (.child c :: ps)) :
    ∃ c' qs', qs = .child c' :: qs' ∧ c'.LeftOf allowed c ∧
      List.Forall₂ (Part.LeftOf allowed kind) qs' ps := by
  cases h with
  | cons hpart hrest =>
    cases hpart with
    | alike h =>
      cases h with
      | child h => exact ⟨_, _, rfl, h, hrest⟩

/-- What is left of a node that speaks for a function has the name of the function in the same
leaf. -/
theorem Node.NamedBy.leftOf {id : NodeId} {t : Token}
    (h : n.NamedBy (Node.leaf .identifier id span t)) (hleft : n'.LeftOf allowed n) :
    n'.NamedBy (Node.leaf .identifier id span t) := by
  generalize hleaf : Node.leaf .identifier id span t = leaf at h
  induction h generalizing n' with
  | header =>
    subst hleaf
    obtain ⟨_, rfl, hparts⟩ := hleft.inv
    obtain ⟨_, _, rfl, -, hrest⟩ := Part.LeftOf.child hparts
    obtain ⟨_, _, rfl, hname, -⟩ := Part.LeftOf.child hrest
    obtain rfl := hname.eq_leaf
    exact .header
  | prototype hkind _ ih =>
    obtain ⟨_, rfl, hparts⟩ := hleft.inv
    obtain ⟨_, _, rfl, hheader, -⟩ := Part.LeftOf.child hparts
    exact .prototype (hheader.kind.trans hkind) (ih hheader hleaf)
  | definition hkind _ ih =>
    obtain ⟨_, rfl, hparts⟩ := hleft.inv
    obtain ⟨_, _, rfl, hprototype, -⟩ := Part.LeftOf.child hparts
    exact .definition (hprototype.kind.trans hkind) (ih hprototype hleaf)
  | call =>
    subst hleaf
    obtain ⟨_, rfl, hparts⟩ := hleft.inv
    obtain ⟨_, _, rfl, hname, -⟩ := Part.LeftOf.child hparts
    obtain rfl := hname.eq_leaf
    exact .call

/-- What is left of a node stands right below what is left of the node that it stood below. -/
theorem Node.LeftOf.parent (h : root'.LeftOf allowed root) (hids : root.Distinct)
    (hn' : n' ∈ root'.preorder) (hne : n' ≠ root') (hid : n'.id = n.id) {d : Node}
    (hd : d ∈ root.preorder) (hmem : n ∈ d.children) :
    ∃ d' ∈ root'.preorder, d'.LeftOf allowed d ∧ n' ∈ d'.children := by
  obtain ⟨d', hd', hmem'⟩ := Node.exists_parent hn' hne
  obtain ⟨m, hm, hleft⟩ := h.origin hd'
  obtain ⟨c, hc, hcleft⟩ := hleft.child hmem'
  -- The node below `m` that it is left of is `n`, so that `m` is `d`.
  obtain rfl := hids.parent_unique hm hd hc hmem (hcleft.id.symm.trans hid)
  exact ⟨d', hd', hleft, hmem'⟩

/-- A reference that is left has its name in the leaf that it had. -/
theorem Node.LeftOf.bears (h : root'.LeftOf allowed root) (hroot : root.kind = .program)
    (hids : root.Distinct) {leaf : Node} (hbears : root.Bears target n leaf)
    (hn : n ∈ root.preorder) (hn' : n' ∈ root'.preorder) (hid : n'.id = n.id) :
    root'.Bears target n' leaf := by
  obtain ⟨m, hm, hleft⟩ := h.origin hn'
  obtain rfl := hids.eq_of_id hm hn (hleft.id.symm.trans hid)
  cases hbears with
  | ofVariable =>
    obtain rfl := hleft.eq_leaf
    exact .ofVariable
  | ofType =>
    obtain rfl := hleft.eq_leaf
    exact .ofType
  | ofFunction hnamed hheader hstands =>
    refine .ofFunction (hnamed.leftOf hleft) (hleft.kind ▸ hheader) fun hkind => ?_
    obtain ⟨d, hd, hdkind, hmem⟩ := hstands (hleft.kind.symm.trans hkind)
    have hne : n' ≠ root' := by
      rintro rfl
      rw [h.kind, hroot] at hkind
      cases hkind
    obtain ⟨d', hd', hdleft, hmem'⟩ := h.parent hids hn' hne hid hd hmem
    exact ⟨d', hd', hdleft.kind.trans hdkind, hmem'⟩

theorem Node.Retains.leftOf {scope : Scope} (h : root.Retains scope target)
    (hleft : root'.LeftOf allowed root) : root'.Retains scope target where
  kind := hleft.kind.trans h.kind
  fit := hleft.allFit h.fit
  distinct := hleft.distinct h.distinct
  oneName := h.oneName
  bears_of_mem hn' href := by
    obtain ⟨n, hn, hnleft⟩ := hleft.origin hn'
    obtain ⟨leaf, hleaf⟩ := h.bears_of_mem hn (hnleft.id ▸ href)
    exact ⟨leaf, hleft.bears h.kind h.distinct hleaf hn hn' hnleft.id⟩

end LeftOf

/-! ### Renaming what is left -/

/-- What renaming a registry of a scope does to a tree from which nodes may be missing, whatever
gives the new names. -/
structure Node.RenamesLeft (root : Node) (scope : Scope) (target : RenameTarget) : Prop where
  /-- The references are the nodes of the tree that are listed, with the names under which they
  are. -/
  listed : ∀ name n, (name, n) ∈ root.referencesTo scope target ↔
    n ∈ root.preorder ∧ scope.Refers target name n.id
  /-- Each of them is a reference once. -/
  once : ((root.referencesTo scope target).map fun c => c.2.id).Nodup
  /-- They come in pre-order. -/
  inOrder : ((root.referencesTo scope target).map Prod.snd).Sublist root.preorder
  /-- No two references have the same leaf. -/
  ownLeaves : ∀ c ∈ root.referencesTo scope target, ∀ c' ∈ root.referencesTo scope target,
    ∀ leaf leaf', c.2.namedLeaf target = .ok leaf → c'.2.namedLeaf target = .ok leaf' →
      leaf.id = leaf'.id → c = c'
  /-- The new names are asked for the references, one after the other, and the tree is relabelled
  with them: nothing else changes. -/
  renames : ∀ {τ : Type} (mangle : Mangle τ) (mangling : τ),
    (root.rename scope target mangle mangling).root =
        root.relabel (root.renamed scope target mangle mangling).1 ∧
      (root.rename scope target mangle mangling).mangling =
        (root.renamed scope target mangle mangling).2
  /-- Each reference has a leaf, and in its place there is one with the new name afterwards. -/
  named : ∀ {τ : Type} (mangle : Mangle τ) (mangling : τ), ∀ c new,
    (c, new) ∈ (root.referencesTo scope target).zip
      ((mangle.answers (root.referencesTo scope target)).run mangling).1 →
    ∃ id span t, c.2.namedLeaf target = .ok (Node.leaf target.leafKind id span t) ∧
      Node.leaf target.leafKind id span ⟨new, t.trivia⟩ ∈
        (root.rename scope target mangle mangling).root.preorder
  /-- The renaming succeeds exactly if all that is listed is in the tree. -/
  succeeds : ∀ {τ : Type} (mangle : Mangle τ) (mangling : τ),
    (root.rename scope target mangle mangling).error = none ↔
      ∀ name i, scope.Refers target name i → i ∈ root.ids
  /-- Otherwise it gives a name that is listed with a node that is not in the tree. -/
  fails : ∀ {τ : Type} (mangle : Mangle τ) (mangling : τ), ∀ e,
    (root.rename scope target mangle mangling).error = some e →
      ∃ name i, e = .missingReference name ∧ scope.Refers target name i ∧ i ∉ root.ids
  /-- What is left over, all of which could be given, is just what is listed with nodes that are not
  in the tree. -/
  leftOver : ∀ {τ : Type} (mangle : Mangle τ) (mangling : τ), ∀ name i,
    (i, name) ∈ root.leftOver scope target mangle mangling ↔
      scope.Refers target name i ∧ i ∉ root.ids

namespace Node.Retains

variable {root : Node} {scope : Scope} {target : RenameTarget} (h : root.Retains scope target)

include h

theorem leafIds_nodup : (Rename.leafIds target (root.referencesTo scope target)).Nodup := by
  have honce := h.once
  rw [Nodup, pairwise_map] at honce
  rw [Nodup, Rename.leafIds, pairwise_filterMap]
  refine honce.imp_of_mem fun {c c'} hc hc' hne i hi i' hi' heq => ?_
  obtain ⟨leaf, hleaf⟩ := h.bears_of_reference hc
  obtain ⟨leaf', hleaf'⟩ := h.bears_of_reference hc'
  simp only [hleaf.namedLeaf, hleaf'.namedLeaf, Except.toOption, Option.map_some,
    Option.some.injEq] at hi hi'
  refine hne (congrArg (fun c => c.2.id) (h.ownLeaves hc hc' hleaf.namedLeaf hleaf'.namedLeaf ?_))
  rw [hi, hi', heq]

variable {τ : Type} (mangle : Mangle τ) (mangling : τ)

/-- The leaf of each reference gets the answer for the reference. -/
theorem get?_answer {new : String}
    (hc : (c, new) ∈ (root.referencesTo scope target).zip
      ((mangle.answers (root.referencesTo scope target)).run mangling).1) {leaf : Node}
    (hleaf : c.2.namedLeaf target = .ok leaf) :
    (root.renamed scope target mangle mangling).1.get? leaf.id = some new := by
  refine Registry.get?_of_mem ?_ (mem_filterMap.mpr ⟨(c, new), hc, ?_⟩)
  · rw [Registry.Unique, Node.keys_renamed]
    exact h.leafIds_nodup
  · simp [hleaf, Except.toOption]

/-- What is listed with nodes that are not in the tree is left over. -/
theorem mem_leftOver {name : String} {i : NodeId} :
    (i, name) ∈ root.leftOver scope target mangle mangling ↔
      scope.Refers target name i ∧ i ∉ root.ids := by
  rw [(h.renamesReached mangle mangling).mem_leftOver, h.nameOf?_eq_some]

theorem named {new : String}
    (hc : (c, new) ∈ (root.referencesTo scope target).zip
      ((mangle.answers (root.referencesTo scope target)).run mangling).1) :
    ∃ id span t, c.2.namedLeaf target = .ok (Node.leaf target.leafKind id span t) ∧
      Node.leaf target.leafKind id span ⟨new, t.trivia⟩ ∈
        (root.rename scope target mangle mangling).root.preorder := by
  have hmem := (of_mem_zip hc).1
  obtain ⟨id, span, t, hleaf, hbelow⟩ := h.leaves hmem
  have hget : (root.renamed scope target mangle mangling).1.get? id = some new :=
    h.get?_answer mangle mangling hc hleaf
  refine ⟨id, span, t, hleaf, ?_⟩
  rw [(h.renamesReached mangle mangling).root_eq, Node.preorder_relabel,
    ← Node.relabel_leaf_of_some _ target.leafKind_isName hget span t]
  exact mem_map_of_mem (Node.mem_preorder_trans (Rename.mem_calls.mp hmem).1 hbelow)

/-- What is left of a tree is renamed as far as it is left. -/
theorem renamesLeft : root.RenamesLeft scope target where
  listed name n := by
    rw [Node.referencesTo, Rename.mem_calls, h.nameOf?_eq_some]
  once := h.once
  inOrder := Rename.calls_sublist root.preorder
  ownLeaves _ hc _ hc' _ _ := h.ownLeaves hc hc'
  renames mangle mangling :=
    have hreached := h.renamesReached mangle mangling
    ⟨hreached.root_eq, hreached.mangling_eq⟩
  named mangle mangling _ _ := h.named mangle mangling
  succeeds mangle mangling := by
    rw [(h.renamesReached mangle mangling).error_eq, Option.map_eq_none_iff,
      head?_eq_none_iff, eq_nil_iff_forall_not_mem]
    constructor
    · intro hnone name i href
      by_contra hi
      exact hnone (i, name) ((h.mem_leftOver mangle mangling).mpr ⟨href, hi⟩)
    · rintro hfound ⟨i, name⟩ hleft
      obtain ⟨href, hi⟩ := (h.mem_leftOver mangle mangling).mp hleft
      exact hi (hfound name i href)
  fails mangle mangling e he := by
    rw [(h.renamesReached mangle mangling).error_eq, Option.map_eq_some_iff] at he
    obtain ⟨⟨i, name⟩, hhead, rfl⟩ := he
    exact ⟨name, i, rfl, (h.mem_leftOver mangle mangling).mp (mem_of_head? hhead)⟩
  leftOver mangle mangling _ _ := h.mem_leftOver mangle mangling

end Node.Retains

/-! ### Programs after removals -/

/-- The trees that visits that only remove nodes make of the tree of a program. -/
inductive Program.Pruned (p : Program) : Node → Prop
  | read : Pruned p p.root
  | visit {σ : Type} {root : Node} {v : Visitor σ} (s : σ) :
      Pruned p root → v.Removes (fun _ _ => True) → Pruned p ((root.visit v s).tree root)

/-- After any removals, the references that are left have their leaves. -/
theorem Program.Pruned.retains {p : Program} {root : Node} (hroot : p.Pruned root) {scope : Scope}
    (h : p.root.Retains scope target) : root.Retains scope target := by
  induction hroot with
  | read => exact h
  | visit s _ hv ih => exact ih.leftOf (Node.visit_leftOf hv ih.fit.inStep s)

/-- **Renaming after removals.** After any visits that only remove nodes, a renaming of variables
or functions renames every reference that is left and nothing else. It succeeds exactly if all that
the scope lists is left, and otherwise gives a name that is listed with a node that is gone. -/
theorem Program.rename_pruned {text : String} {options : Options} {p : Program}
    (hp : Program.parse text options = .ok p) {root : Node} (hroot : p.Pruned root)
    {scope : Scope} (hscope : scope ∈ p.scopes.scopes) {target : RenameTarget}
    (htarget : target ≠ .types) : root.RenamesLeft scope target := by
  obtain ⟨tree, last, b, h⟩ := Program.comesFrom hp
  exact (hroot.retains (h.serves hscope htarget).retains).renamesLeft

/-- Of two calls of a function the first is removed with its statement, and an argument of the other
one. What is left is renamed, and the call that is gone is missing. -/
theorem Program.rename_pruned_call :
    ∃ p scope root,
      Program.parse "int f(); void g() \x7b f(); f(1, 2); \x7d" Options.default = .ok p ∧
      scope ∈ p.scopes.scopes ∧ p.Pruned root ∧ RenameTarget.functions ≠ .types ∧
      root.source = "int f(); void g() \x7b f(2); \x7d" ∧
      (root.rename scope .functions (fun name _ => pure ("m_" ++ name)) ()).root.source =
        "int m_f(); void m_g() \x7b m_f(2); \x7d" ∧
      (root.rename scope .functions (fun name _ => pure ("m_" ++ name)) ()).error =
        some (.missingReference "f") ∧
      root.RenamesLeft scope .functions := by
  let pick : Path → Bool := fun path =>
    path.key.any (fun key => key.index == some 0) &&
      (path.node.kind == .expressionStatement || path.node.kind == .literal)
  refine Program.exists_of_parse
    (fun p hparse (h : p.scopes.root ∈ p.scopes.scopes ∧ _ ∧ _ ∧ _) =>
      have hroot : p.Pruned ((p.root.visit (Visitor.removing pick) ()).tree p.root) :=
        .visit () .read (Visitor.removing_removes fun _ _ _ _ _ _ => trivial)
      ⟨_, _, hparse, h.1, hroot, by decide, h.2.1, h.2.2.1, h.2.2.2,
        Program.rename_pruned hparse hroot h.1 (by decide)⟩) ?_
  decide +kernel

end ShaderSource
