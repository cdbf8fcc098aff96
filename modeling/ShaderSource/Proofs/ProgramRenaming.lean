import ShaderSource.Proofs.Reference

/-!
# Renaming programs

Renaming the variables or the functions of a scope never fails, right after reading a program or
after any number of such renamings. It asks for a new name once for each node that the registry
lists, in pre-order, and the answers stand in the leaves of these nodes afterwards; nothing else
has changed. So a later renaming overrides an earlier one of the same registry, and renaming to the
names that are registered puts these back.

Types are not as safe. A call may be bound to a function at first and to a type when its block is
gone over again, and then an identifier is listed as a type. Renaming types succeeds exactly if
this does not happen: if all that is listed are type names of the tree.

## Main results

* `Program.rename_exact`: what renaming variables and functions does, in any run.
* `Program.rename_types_iff`: when renaming types succeeds, and what it does then.
-/

namespace ShaderSource

open List Node Rename

variable {leaf : Node} {target : RenameTarget} {τ : Type} {c : String × Node}

/-! ### References of relabelled trees -/

namespace Rename

variable {target : RenameTarget} {R : NodeId → Option String}

theorem calls_map {f : Node → Node} (hf : ∀ n, (f n).id = n.id) (l : List Node) :
    calls R (l.map f) = (calls R l).map fun c => (c.1, f c.2) := by
  simp only [calls, filterMap_map, map_filterMap, Function.comp_def, hf, Option.map_map]

theorem mem_calls {l : List Node} {name : String} {n : Node} :
    (name, n) ∈ calls R l ↔ n ∈ l ∧ R n.id = some name := by
  simp only [calls, mem_filterMap, Option.map_eq_some_iff, Prod.mk.injEq]
  constructor
  · rintro ⟨m, hm, name', hname, rfl, rfl⟩
    exact ⟨hm, hname⟩
  · rintro ⟨hn, hname⟩
    exact ⟨n, hn, name, hname, rfl, rfl⟩

theorem calls_sublist (l : List Node) : ((calls R l).map Prod.snd).Sublist l := by
  induction l with
  | nil => exact List.Sublist.slnil
  | cons n l ih =>
    rw [calls] at ih ⊢
    rw [filterMap_cons]
    cases R n.id with
    | none => exact ih.cons n
    | some name => exact ih.cons_cons n

/-- The identities of the leaves of references. -/
def leafIds (target : RenameTarget) (calls : List (String × Node)) : List NodeId :=
  calls.filterMap fun c => (c.2.namedLeaf target).toOption.map Node.id

/-- New names are for the leaves of the references, in order. -/
theorem keys_newNames {calls : List (String × Node)} {answers : List String}
    (h : answers.length = calls.length) :
    (newNames target calls answers).map Prod.fst = leafIds target calls := by
  have hfst : (calls.zip answers).map Prod.fst = calls :=
    map_fst_zip (Nat.le_of_eq h.symm)
  rw [newNames, map_filterMap, leafIds]
  conv_rhs => rw [← hfst, filterMap_map]
  simp only [Option.map_map, Function.comp_def]

end Rename

/-- What gives names by the old ones alone. -/
def Mangle.ofFunction (f : String → String) : Mangle Unit := fun name _ => pure (f name)

theorem Mangle.ofFunction_answers (f : String → String) (calls : List (String × Node)) :
    ((Mangle.ofFunction f).answers calls).run () = (calls.map fun c => f c.1, ()) := by
  induction calls with
  | nil => rfl
  | cons c calls ih =>
    simp only [Mangle.answers, mapM_cons, StateT.run_bind] at ih ⊢
    exact congrArg (fun r : List String × Unit => (f c.1 :: r.1, r.2)) ih

/-- What gives names back as they are registered. -/
def Mangle.registered : Mangle Unit := fun name _ => pure name

/-- The kind of the leaves in which the names stand. -/
def RenameTarget.leafKind : RenameTarget → Kind
  | .types => .typeName
  | _ => .identifier

theorem RenameTarget.leafKind_isName (target : RenameTarget) : target.leafKind.IsName := by
  cases target <;> simp [RenameTarget.leafKind, Kind.IsName]

theorem Node.Bears.eq_leaf {root n : Node} (h : root.Bears target n leaf) :
    ∃ id span t, leaf = Node.leaf target.leafKind id span t := by
  cases h <;> exact ⟨_, _, _, rfl⟩

/-- What renaming a registry of a scope does to a tree, whatever gives the new names. -/
structure Node.RenamesExactly (root : Node) (scope : Scope) (target : RenameTarget) : Prop where
  /-- The references are the nodes that are listed, with the names under which they are. -/
  listed : ∀ name i, scope.Refers target name i ↔
    ∃ n, (name, n) ∈ root.referencesTo scope target ∧ n.id = i
  /-- Each of them is a reference once. -/
  once : ((root.referencesTo scope target).map fun c => c.2.id).Nodup
  /-- They come in pre-order. -/
  inOrder : ((root.referencesTo scope target).map Prod.snd).Sublist root.preorder
  /-- The name of a reference stands in a leaf of it. -/
  leaves : ∀ c ∈ root.referencesTo scope target, ∃ id span t,
    c.2.namedLeaf target = .ok (Node.leaf target.leafKind id span t) ∧
      Node.leaf target.leafKind id span t ∈ c.2.preorder
  /-- No two references have the same leaf. -/
  ownLeaves : ∀ c ∈ root.referencesTo scope target, ∀ c' ∈ root.referencesTo scope target,
    ∀ leaf leaf', c.2.namedLeaf target = .ok leaf → c'.2.namedLeaf target = .ok leaf' →
      leaf.id = leaf'.id → c = c'
  /-- A renaming succeeds. The leaves of the references get as names the answers for the references,
  asked for one after the other, and nothing else changes. -/
  renames : ∀ {τ : Type} (mangle : Mangle τ) (mangling : τ),
    (root.rename scope target mangle mangling).error = none ∧
      (root.rename scope target mangle mangling).root =
        root.relabel (root.renamed scope target mangle mangling).1 ∧
      (root.rename scope target mangle mangling).mangling =
        (root.renamed scope target mangle mangling).2
  /-- Of an earlier renaming nothing is left after a later one. -/
  overrides : ∀ {τ τ' : Type} (mangle : Mangle τ) (mangling : τ) (mangle' : Mangle τ')
    (mangling' : τ'),
    ((root.rename scope target mangle mangling).root.rename scope target mangle' mangling').root =
      root.relabel ((root.rename scope target mangle mangling).root.renamed scope target mangle'
        mangling').1
  /-- So if the later one looks at names only, it is as if the earlier one had not been. -/
  forgets : ∀ {τ τ' : Type} (mangle : Mangle τ) (mangling : τ) (mangle' : Mangle τ')
    (mangling' : τ'), (∀ name n n', mangle' name n = mangle' name n') →
    ((root.rename scope target mangle mangling).root.rename scope target mangle' mangling').root =
      (root.rename scope target mangle' mangling').root
  /-- Renaming to the registered names puts them into the leaves. -/
  restores : ∀ c ∈ (root.rename scope target Mangle.registered ()).root.referencesTo scope target,
    ∃ id span t, c.2.namedLeaf target = .ok (Node.leaf target.leafKind id span t) ∧ t.text = c.1

theorem Node.referencesTo_relabel (root : Node) (scope : Scope) (target : RenameTarget)
    (names : Registry NodeId String) :
    (root.relabel names).referencesTo scope target =
      (root.referencesTo scope target).map fun c => (c.1, c.2.relabel names) := by
  rw [referencesTo, preorder_relabel, calls_map (id_relabel names)]
  rfl

theorem Node.keys_renamed (root : Node) (scope : Scope) (target : RenameTarget) (mangle : Mangle τ)
    (mangling : τ) : ((root.renamed scope target mangle mangling).1).map Prod.fst =
      Rename.leafIds target (root.referencesTo scope target) :=
  keys_newNames (length_answers _ _)

namespace Node.Retains

variable {root : Node} {scope : Scope} {target : RenameTarget} (h : root.Retains scope target)

include h

theorem bears_of_reference (hc : c ∈ root.referencesTo scope target) :
    ∃ leaf, root.Bears target c.2 leaf := by
  obtain ⟨hn, hname⟩ := mem_calls.mp hc
  exact h.bears_of_mem hn (Scope.refers_of_nameOf? hname)

theorem ownLeaves {c' : String × Node} (hc : c ∈ root.referencesTo scope target)
    (hc' : c' ∈ root.referencesTo scope target) {leaf' : Node}
    (hleaf : c.2.namedLeaf target = .ok leaf) (hleaf' : c'.2.namedLeaf target = .ok leaf')
    (hid : leaf.id = leaf'.id) : c = c' := by
  obtain ⟨hn, hname⟩ := mem_calls.mp hc
  obtain ⟨hn', hname'⟩ := mem_calls.mp hc'
  have hsame : c.2 = c'.2 := h.ownsLeaves.unique _ hn _ hn' (by simp [hname]) (by simp [hname'])
    leaf leaf' hleaf hleaf' hid
  rw [hsame] at hname
  exact Prod.ext (Option.some.inj (hname.symm.trans hname')) hsame

/-- Each node is a reference once. -/
theorem once : ((root.referencesTo scope target).map fun c => c.2.id).Nodup := by
  have hsub := (calls_sublist (R := scope.nameOf? target) root.preorder).map Node.id
  rw [map_map] at hsub
  exact hsub.nodup h.distinct

/-- The name of a reference stands in a leaf of it. -/
theorem leaves (hc : c ∈ root.referencesTo scope target) :
    ∃ id span t, c.2.namedLeaf target = .ok (Node.leaf target.leafKind id span t) ∧
      Node.leaf target.leafKind id span t ∈ c.2.preorder := by
  obtain ⟨leaf, hleaf⟩ := h.bears_of_reference hc
  obtain ⟨id, span, t, rfl⟩ := hleaf.eq_leaf
  exact ⟨id, span, t, hleaf.namedLeaf, hleaf.mem⟩

end Node.Retains

namespace Node.Serves

variable {root : Node} {scope : Scope} {target : RenameTarget} (h : root.Serves scope target)

include h

/-- The leaves of the references have the same identities in the relabelled tree. -/
theorem leafIds_relabel (names : Registry NodeId String) :
    Rename.leafIds target ((root.relabel names).referencesTo scope target) =
      Rename.leafIds target (root.referencesTo scope target) := by
  rw [referencesTo_relabel, leafIds, filterMap_map, leafIds]
  refine filterMap_congr fun c hc => ?_
  obtain ⟨leaf, hleaf⟩ := h.retains.bears_of_reference hc
  simp [hleaf.namedLeaf, (hleaf.relabel names).namedLeaf, Except.toOption]

theorem listed (name : String) (i : NodeId) :
    scope.Refers target name i ↔ ∃ n, (name, n) ∈ root.referencesTo scope target ∧ n.id = i := by
  constructor
  · intro href
    obtain ⟨n, hn, rfl, -⟩ := h.bears href
    exact ⟨n, mem_calls.mpr ⟨hn, h.retains.nameOf?_eq_some.mpr href⟩, rfl⟩
  · rintro ⟨n, hn, rfl⟩
    exact h.retains.nameOf?_eq_some.mp (mem_calls.mp hn).2

theorem overrides {τ' : Type} (mangle : Mangle τ) (mangling : τ) (mangle' : Mangle τ')
    (mangling' : τ') :
    ((root.rename scope target mangle mangling).root.rename scope target mangle' mangling').root =
      root.relabel ((root.rename scope target mangle mangling).root.renamed scope target mangle'
        mangling').1 := by
  obtain ⟨-, hroot, -⟩ := h.rename_eq mangle mangling
  rw [hroot, ((h.relabel _).rename_eq mangle' mangling').2.1]
  refine relabel_override ?_
  rw [keys_renamed, keys_renamed, h.leafIds_relabel]

/-- If names are given without a look at the nodes, the new names are the same in the relabelled
tree. -/
theorem renamed_relabel {mangle : Mangle τ} (hmangle : ∀ name n n', mangle name n = mangle name n')
    (mangling : τ) (names : Registry NodeId String) :
    (root.relabel names).renamed scope target mangle mangling =
      root.renamed scope target mangle mangling := by
  have hanswers : mangle.answers ((root.relabel names).referencesTo scope target) =
      mangle.answers (root.referencesTo scope target) := by
    rw [referencesTo_relabel, Mangle.answers, mapM_map, Mangle.answers]
    congr 1
    funext c
    exact hmangle _ _ _
  simp only [renamed, hanswers]
  generalize (mangle.answers (root.referencesTo scope target)).run mangling = answered
  refine Prod.ext ?_ rfl
  change newNames target _ answered.1 = newNames target _ answered.1
  rw [referencesTo_relabel, newNames, zip_map_left, filterMap_map]
  refine filterMap_congr fun c hc => ?_
  obtain ⟨leaf, hleaf⟩ := h.retains.bears_of_reference (of_mem_zip hc).1
  simp [hleaf.namedLeaf, (hleaf.relabel names).namedLeaf, Except.toOption]

theorem forgets {τ' : Type} (mangle : Mangle τ) (mangling : τ) {mangle' : Mangle τ'}
    (mangling' : τ') (hmangle : ∀ name n n', mangle' name n = mangle' name n') :
    ((root.rename scope target mangle mangling).root.rename scope target mangle' mangling').root =
      (root.rename scope target mangle' mangling').root := by
  rw [h.overrides, (h.rename_eq mangle mangling).2.1, h.renamed_relabel hmangle,
    (h.rename_eq mangle' mangling').2.1]

/-- The new names if they are given by the old ones: the leaf of each reference gets its own. -/
theorem mem_renamed {f : String → String} {e : NodeId × String}
    (he : e ∈ (root.renamed scope target (Mangle.ofFunction f) ()).1) :
    ∃ c ∈ root.referencesTo scope target, ∃ leaf, root.Bears target c.2 leaf ∧
      e = (leaf.id, f c.1) := by
  have hzip : ∀ calls : List (String × Node),
      calls.zip (calls.map fun c => f c.1) = calls.map fun c => (c, f c.1) := fun calls => by
    simpa using zip_map' (f := fun c => c) (g := fun c => f c.1) (l := calls)
  have hnames : (root.renamed scope target (Mangle.ofFunction f) ()).1 =
      newNames target (root.referencesTo scope target)
        ((root.referencesTo scope target).map fun c => f c.1) := by
    rw [renamed, Mangle.ofFunction_answers]
  rw [hnames, newNames, hzip, filterMap_map] at he
  obtain ⟨c, hc, heq⟩ := mem_filterMap.mp he
  obtain ⟨leaf, hleaf⟩ := h.retains.bears_of_reference hc
  refine ⟨c, hc, leaf, hleaf, ?_⟩
  simpa [hleaf.namedLeaf, Except.toOption, eq_comm] using heq

/-- The leaf of each reference gets the new name of the reference. -/
theorem get?_renamed (f : String → String) (hc : c ∈ root.referencesTo scope target)
    (hleaf : c.2.namedLeaf target = .ok leaf) :
    (root.renamed scope target (Mangle.ofFunction f) ()).1.get? leaf.id = some (f c.1) := by
  have hkey : leaf.id ∈ ((root.renamed scope target (Mangle.ofFunction f) ()).1).map Prod.fst := by
    rw [keys_renamed]
    exact mem_filterMap.mpr ⟨c, hc, by simp [hleaf, Except.toOption]⟩
  cases hget : (root.renamed scope target (Mangle.ofFunction f) ()).1.get? leaf.id with
  | none => exact absurd hkey (Registry.get?_eq_none_iff.mp hget)
  | some name =>
    obtain ⟨c', hc', leaf', hleaf', heq⟩ := h.mem_renamed (Registry.mem_of_get? hget)
    obtain ⟨hid, rfl⟩ := Prod.mk.inj heq
    rw [h.retains.ownLeaves hc hc' hleaf hleaf'.namedLeaf hid]

theorem restores
    (hc : c ∈ (root.rename scope target Mangle.registered ()).root.referencesTo scope target) :
    ∃ id span t, c.2.namedLeaf target = .ok (Node.leaf target.leafKind id span t) ∧
      t.text = c.1 := by
  rw [(h.rename_eq Mangle.registered ()).2.1, referencesTo_relabel] at hc
  obtain ⟨c', hc', rfl⟩ := mem_map.mp hc
  obtain ⟨leaf, hleaf⟩ := h.retains.bears_of_reference hc'
  have hget := h.get?_renamed (fun name => name) hc' hleaf.namedLeaf
  have hrelabel := hleaf.relabel (root.renamed scope target Mangle.registered ()).1
  obtain ⟨id, span, t, rfl⟩ := hleaf.eq_leaf
  refine ⟨id, span, ⟨c'.1, t.trivia⟩, ?_, rfl⟩
  rw [hrelabel.namedLeaf]
  exact congrArg Except.ok (relabel_leaf_of_some _ target.leafKind_isName hget span t)

/-- A tree that serves a registry is renamed exactly. -/
theorem renamesExactly : root.RenamesExactly scope target where
  listed := h.listed
  once := h.retains.once
  inOrder := calls_sublist root.preorder
  leaves _ := h.retains.leaves
  ownLeaves _ hc _ hc' _ _ := h.retains.ownLeaves hc hc'
  renames := h.rename_eq
  overrides := h.overrides
  forgets mangle mangling _ mangling' := h.forgets mangle mangling mangling'
  restores _ := h.restores

end Node.Serves

/-! ### Variables and functions -/

/-- The trees that renamings of variables and functions make of the tree of a program. -/
inductive Program.Renamed (p : Program) : Node → Prop
  | parsed : Renamed p p.root
  | rename {root : Node} {scope : Scope} {target : RenameTarget} {τ : Type} (mangle : Mangle τ)
      (mangling : τ) :
      Renamed p root → scope ∈ p.scopes.scopes → target ≠ .types →
      Renamed p (root.rename scope target mangle mangling).root

namespace Program.ComesFrom

variable {p : Program} {tree : Node} {last : NodeId} {b : Names} (h : p.ComesFrom tree last b)

include h

/-- Renamings only relabel, however many there are. -/
theorem exists_relabel {root : Node} (hroot : p.Renamed root) :
    ∃ names, root = p.root.relabel names := by
  induction hroot with
  | parsed => exact ⟨[], (relabel_nil _).symm⟩
  | rename mangle mangling _ hscope htarget ih =>
    obtain ⟨names, rfl⟩ := ih
    have hserves := (h.serves hscope htarget).relabel names
    exact ⟨_, by rw [(hserves.rename_eq mangle mangling).2.1, relabel_relabel]⟩

/-- Right after reading, the name in the leaf of a reference is the registered one. -/
theorem leaf_of_reference {scope : Scope} (hscope : scope ∈ p.scopes.scopes)
    (htarget : target ≠ .types) (hc : c ∈ p.root.referencesTo scope target)
    (hleaf : p.root.Bears target c.2 leaf) :
    leaf ∈ p.root.preorder ∧
      ∃ id span t, leaf = Node.leaf .identifier id span t ∧ t.text = c.1 := by
  obtain ⟨hn, hname⟩ := mem_calls.mp hc
  obtain ⟨n, hn', hid, id, span, t, hleaf', htext⟩ :=
    h.bears htarget ⟨scope, hscope, Scope.refers_of_nameOf? hname⟩
  obtain rfl := h.distinct.eq_of_id hn' hn hid
  obtain rfl := Except.ok.inj (hleaf.namedLeaf.symm.trans hleaf'.namedLeaf)
  exact ⟨mem_preorder_trans hn hleaf.mem, id, span, t, rfl, htext⟩

/-- Renaming to the registered names changes nothing right after reading. -/
theorem rename_registered {scope : Scope} (hscope : scope ∈ p.scopes.scopes)
    (htarget : target ≠ .types) :
    (p.root.rename scope target Mangle.registered ()).root = p.root := by
  have hserves := h.serves hscope htarget
  rw [(hserves.rename_eq Mangle.registered ()).2.1]
  refine relabel_eq_self fun m hm name hget => ?_
  obtain ⟨c, hc, leaf, hleaf, heq⟩ :=
    hserves.mem_renamed (f := fun name => name) (Registry.mem_of_get? hget)
  obtain ⟨hid, rfl⟩ := Prod.mk.inj heq
  obtain ⟨hmem, id, span, t, rfl, htext⟩ := h.leaf_of_reference hscope htarget hc hleaf
  obtain rfl := h.distinct.eq_of_id hm hmem hid
  rw [withName_leaf (.inl rfl), ← htext]

end Program.ComesFrom

/-- **Renaming variables and functions is total and exact.** Whatever was renamed before, renaming
the variables or the functions of a scope succeeds, asks for each listed node once and in order,
and changes the leaves of these nodes only. Renaming back to the registered names undoes a renaming
of the tree that was read. -/
theorem Program.rename_exact {text : String} {options : Options} {p : Program}
    (hp : Program.parse text options = .ok p) {root : Node} (hroot : p.Renamed root)
    {scope : Scope} (hscope : scope ∈ p.scopes.scopes) {target : RenameTarget}
    (htarget : target ≠ .types) :
    root.RenamesExactly scope target ∧
      ∀ {τ : Type} (mangle : Mangle τ) (mangling : τ),
        ((p.root.rename scope target mangle mangling).root.rename scope target
          Mangle.registered ()).root = p.root := by
  obtain ⟨tree, last, b, h⟩ := Program.comesFrom hp
  have hserves := h.serves hscope htarget
  obtain ⟨names, rfl⟩ := h.exists_relabel hroot
  refine ⟨(hserves.relabel names).renamesExactly, fun mangle mangling => ?_⟩
  rw [hserves.forgets mangle mangling () fun _ _ _ => rfl, h.rename_registered hscope htarget]

theorem eq_ok_of_toOption {ε α : Type} {e : Except ε α} {a : α} (h : e.toOption = some a) :
    e = .ok a := by
  cases e <;> cases h
  rfl

/-- A program that is read from a given source, and what is found by reading it. -/
theorem Program.exists_of_parse {text : String} {options : Options} {P Q : Program → Prop}
    [DecidablePred P] (hQ : ∀ p, Program.parse text options = .ok p → P p → Q p)
    (h : (Program.parse text options).toOption.any (fun p => decide (P p)) = true) :
    ∃ p, Q p := by
  obtain ⟨p, hp, hP⟩ := (Option.any_eq_true _ _).mp h
  exact ⟨p, hQ p (eq_ok_of_toOption hp) (of_decide_eq_true hP)⟩

/-- Renaming the functions of a program whose variables are renamed already. The function is called
from the outside, and a variable is used inside it. -/
theorem Program.rename_exact_call :
    ∃ p scope root,
      Program.parse "int a; int f() \x7b return a; \x7d int b = f();" Options.default = .ok p ∧
      scope ∈ p.scopes.scopes ∧ p.Renamed root ∧ RenameTarget.functions ≠ .types ∧
      root.source = "int v_a; int f() \x7b return v_a; \x7d int v_b = f();" ∧
      (root.rename scope .functions (fun name _ => pure ("m_" ++ name)) ()).root.source =
        "int v_a; int m_f() \x7b return v_a; \x7d int v_b = m_f();" ∧
      root.RenamesExactly scope .functions := by
  refine Program.exists_of_parse (fun p hparse (h : p.scopes.root ∈ p.scopes.scopes ∧ _ ∧ _) =>
    have htarget : RenameTarget.functions ≠ .types := by decide
    have hroot := Program.Renamed.rename (fun name _ => pure ("v_" ++ name)) () .parsed h.1
      (show RenameTarget.vars ≠ .types by decide)
    ⟨_, _, hparse, h.1, hroot, htarget, h.2.1, h.2.2,
      (Program.rename_exact hparse hroot h.1 htarget).1⟩) ?_
  decide +kernel

/-! ### Types -/

/-- The tree of a program serves a registry of types that lists only type names of it. -/
theorem Program.ComesFrom.serves_types {p : Program} {tree : Node} {last : NodeId} {b : Names}
    (h : p.ComesFrom tree last b) {scope : Scope} (hscope : scope ∈ p.scopes.scopes)
    (hnames : ∀ name i, scope.Refers .types name i →
      ∃ n ∈ p.root.preorder, n.id = i ∧ n.kind = .typeName) : p.root.Serves scope .types := by
  have hleaf : ∀ {x i}, scope.Refers .types x i →
      ∃ n ∈ p.root.preorder, n.id = i ∧
        ∃ id span t, n = Node.leaf .typeName id span t ∧ t.text = x := by
    intro x i href
    obtain ⟨n, hn, rfl, hkind⟩ := hnames x i href
    rcases h.kind_of_listed_type hn ⟨scope, hscope, href⟩ with htype | ⟨id, span, t, rfl⟩
    · exact ⟨n, hn, rfl, htype⟩
    · cases hkind
  refine ⟨h.kind_root, h.allFit, h.distinct, fun {x y i} hx hy => ?_, fun {x i} href => ?_⟩
  · obtain ⟨n, hn, hid, id, span, t, rfl, rfl⟩ := hleaf hx
    obtain ⟨n', hn', hid', id', span', t', rfl, rfl⟩ := hleaf hy
    cases h.distinct.eq_of_id hn hn' (hid.trans hid'.symm)
    rfl
  · obtain ⟨n, hn, hid, id, span, t, rfl, -⟩ := hleaf href
    exact ⟨_, hn, hid, _, .ofType⟩

/-- **Renaming types, right after reading**: it succeeds exactly if the nodes that are listed are
type names of the tree, and then it changes these and nothing else. -/
theorem Program.rename_types_iff {text : String} {options : Options} {p : Program}
    (hp : Program.parse text options = .ok p) {scope : Scope} (hscope : scope ∈ p.scopes.scopes)
    {τ : Type} (mangle : Mangle τ) (mangling : τ) :
    ((p.root.rename scope .types mangle mangling).error = none ↔
      ∀ name i, scope.Refers .types name i →
        ∃ n ∈ p.root.preorder, n.id = i ∧ n.kind = .typeName) ∧
    ((p.root.rename scope .types mangle mangling).error = none →
      p.root.RenamesExactly scope .types) := by
  obtain ⟨tree, last, b, h⟩ := Program.comesFrom hp
  have honly : (p.root.rename scope .types mangle mangling).error = none →
      ∀ name i, scope.Refers .types name i →
        ∃ n ∈ p.root.preorder, n.id = i ∧ n.kind = .typeName := by
    intro hok name i href
    obtain ⟨name', hname'⟩ := Scope.exists_nameOf? href
    obtain ⟨n, hn, rfl, leaf, hleaf⟩ := Node.found_of_rename h.allFit h.distinct
      (by simp [h.kind_root, Kind.IsName]) hok hname'
    refine ⟨n, hn, rfl, ?_⟩
    rcases h.kind_of_listed_type hn ⟨scope, hscope, href⟩ with
      ⟨id, span, t, rfl, -⟩ | ⟨id, span, t, rfl⟩
    · rfl
    · -- An identifier has no leaf for the name of a type.
      cases hleaf
  have hserves := h.serves_types hscope
  refine ⟨⟨honly, fun hnames => ((hserves hnames).rename_eq mangle mangling).1⟩, fun hok => ?_⟩
  exact (hserves (honly hok)).renamesExactly

/-- Types that can be renamed, and types that cannot: in the block a call comes before the type of
its name, so that the call is bound to a function and then again to the type. -/
theorem Program.rename_types_iff_block :
    ∃ p outer inner,
      Program.parse ("uniform B \x7b float a[f(1)]; struct f \x7b int x; \x7d s; \x7d; " ++
        "void g() \x7b struct S \x7b int y; \x7d; S t = S(1); \x7d") Options.default = .ok p ∧
      outer ∈ p.scopes.scopes ∧ inner ∈ p.scopes.scopes ∧
      (p.root.rename outer .types (fun name _ => pure ("t_" ++ name)) ()).error =
        some (.unrecognizedReference .identifier) ∧
      (¬∀ name i, outer.Refers .types name i →
        ∃ n ∈ p.root.preorder, n.id = i ∧ n.kind = .typeName) ∧
      (p.root.rename inner .types (fun name _ => pure ("t_" ++ name)) ()).root.source =
        "uniform B \x7b float a[f(1)]; struct f \x7b int x; \x7d s; \x7d; " ++
        "void g() \x7b struct t_S \x7b int y; \x7d; t_S t = t_S(1); \x7d" ∧
      p.root.RenamesExactly inner .types := by
  refine Program.exists_of_parse (fun p hparse (h : p.scopes.root ∈ p.scopes.scopes ∧
      (p.scopes.get? 1).getD default ∈ p.scopes.scopes ∧ _ ∧ _ ∧ _) =>
    have houter := Program.rename_types_iff hparse h.1 (fun name _ => pure ("t_" ++ name)) ()
    have hinner := Program.rename_types_iff hparse h.2.1 (fun name _ => pure ("t_" ++ name)) ()
    ⟨_, _, hparse, h.1, h.2.1, h.2.2.1,
      fun hnames => Option.some_ne_none _ (h.2.2.1.symm.trans (houter.1.mpr hnames)), h.2.2.2.1,
      hinner.2 h.2.2.2.2⟩) ?_
  decide +kernel

end ShaderSource
