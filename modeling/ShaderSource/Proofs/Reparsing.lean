import ShaderSource.Proofs.Acceptance
import ShaderSource.Proofs.Rebinding
import ShaderSource.Proofs.Rereading

/-!
# Renamed programs are programs

The text of a program with new names for variables or functions is again that of a program, and of
the same one but for the names. Its tokens are the same but for names, so that it is read as the
same tree (`ShaderSource.Proofs.Rereading`). New names for callees stand, before callees are
exchanged, in the type names that the callees come from (`ShaderSource.Proofs.Exchange`). Binding
then goes the same way (`ShaderSource.Proofs.Rebinding`): no type gets a new name, and no call
becomes the call of a type.

## Main results

* `Program.BoundAs.admitsAll`: the occurrences of a tree with new names do the same.
* `Program.reparse_of_suits`: the text of a program with new names is read as that program.
* `Program.parse_of_rename`: that of a renamed program is.
-/

namespace ShaderSource

open Node Program

variable {b : Names} {name x : String}

/-! ### Names that suit a tree -/

/-- New names for the tree of a program suit the tree it comes from and what binding knows about
it: they are identifiers, none is for the name of a type, and those of new callees are not names of
types. -/
structure Node.Suits (tree : Node) (b : Names) (names : Registry NodeId String) : Prop where
  identifiers : ∀ i name, names.get? i = some name → Scan.isIdentifier name = true
  types : ∀ m ∈ tree.preorder, m.kind = .typeName → names.get? m.id = none
  callees : ∀ site fresh name, b.callees.get? site = some fresh → names.get? fresh = some name →
    ∀ s ∈ b.scopes.scopes, s.types.get? name = none

/-- A type that is known in some scope is known there from then on. -/
theorem Names.step_types (h : ∃ s ∈ b.scopes.scopes, (s.types.get? name).isSome = true)
    (o : Occurrence) : ∃ s ∈ (b.step o).scopes.scopes, (s.types.get? name).isSome = true := by
  by_cases hflat : o.isFlat = true
  · obtain ⟨s, hs, hname⟩ := h
    obtain ⟨i, hi⟩ : ∃ i, b.scopes.get? i = some s := List.mem_iff_getElem?.mp hs
    obtain ⟨s', hget, hextends⟩ := (step_flat hflat).2.scope i s hi
    exact ⟨s', ScopeTree.mem_of_get? hget, hextends.types name hname⟩
  · cases o with
    | enter x span =>
      obtain ⟨s, hs, hname⟩ := h
      exact ⟨s, List.mem_append_left _ hs, hname⟩
    | leave => exact h
    | declareVariable | useVariable | declareType | useType | declareFunction | defineFunction
    | call | malformed => exact absurd rfl hflat

theorem Names.foldl_types (h : ∃ s ∈ b.scopes.scopes, (s.types.get? name).isSome = true)
    (os : List Occurrence) :
    ∃ s ∈ (os.foldl Names.step b).scopes.scopes, (s.types.get? name).isSome = true := by
  induction os generalizing b with
  | nil => exact h
  | cons o os ih => exact ih (step_types h o)

/-- A type that is known is known in some scope. -/
theorem Names.KnowsType.exists_scope (h : b.KnowsType name) :
    ∃ s ∈ b.scopes.scopes, (s.types.get? name).isSome = true := by
  obtain ⟨⟨s, e⟩, hlookup⟩ := Option.isSome_iff_exists.mp h
  obtain ⟨hs, hget⟩ := ScopeTree.lookup_eq_some hlookup
  exact ⟨s, hs, Option.isSome_iff_exists.mpr ⟨e, hget⟩⟩

/-- Runs over related occurrences. -/
theorem Names.AdmitsAll.of_forall₂ {R : Occurrence → Occurrence → Prop}
    {os os' : List Occurrence} (h : List.Forall₂ R os os')
    (hstep : ∀ before o after o', os = before ++ o :: after → R o o' →
      (before.foldl Names.step b).Admits o o') : b.AdmitsAll os os' := by
  induction h generalizing b with
  | nil => exact .nil
  | @cons o o' os os' ho _ ih =>
    refine .cons (hstep [] o os o' rfl ho) (ih fun before o₁ after o₁' heq hR => ?_)
    exact hstep (o :: before) o₁ after o₁' (by rw [heq, List.cons_append]) hR

namespace Program.BoundAs

variable {p : Program} {tree tree' : Node} {last : NodeId} {b : Names} (h : p.BoundAs tree last b)
  {names : Registry NodeId String}

include h

theorem get?_moveNames (names : Registry NodeId String) {m : Node} (hm : m ∈ tree.preorder) :
    (tree.moveNames b.callees names).get? m.id =
      names.get? ((tree.calleeFor b.callees m.id).getD m.id) :=
  Distinct.get?_moveNames h.ids.nodup names hm

/-- A name that stays in the tree is not that of a call with a new callee. -/
theorem calleeFor_eq_none {m : Node} (hm : m ∈ tree.preorder) (hstays : m.id ∈ p.root.ids) :
    tree.calleeFor b.callees m.id = none := by
  cases hfor : tree.calleeFor b.callees m.id with
  | none => rfl
  | some fresh =>
    obtain ⟨call, hcall, hplain, hget, m', hm', hid⟩ := mem_of_calleeFor hfor
    obtain rfl := Distinct.eq_of_id h.ids.nodup
      (mem_preorder_trans hcall (mem_along hm')) hm hid
    obtain ⟨n, hn, hnid⟩ := mem_ids.mp hstays
    rcases h.mem_root_cases hn with ⟨k, hk, rfl⟩ | ⟨-, ⟨site, hsite⟩, -⟩
    · rw [id_exchangeCallees] at hnid
      obtain rfl := Distinct.eq_of_id h.ids.nodup hk hm hnid
      rw [h.callee_stays hcall hplain hm' hn] at hget
      cases hget
    · exact absurd (hnid ▸ id_mem_ids hm) (h.fresh hsite)

/-- Types that are declared or used keep their names. -/
theorem keeps_type (hsuits : tree.Suits b names) {site : Site}
    (ho : .declareType x site ∈ tree.occurrences .plain ∨
      .useType x site ∈ tree.occurrences .plain) :
    (tree.moveNames b.callees names).get? site.id = none := by
  obtain ⟨span, t, hleaf⟩ := h.exists_typeName ho
  have hget := h.get?_moveNames names hleaf
  rw [h.calleeFor_eq_none hleaf (h.type_stays ho)] at hget
  exact hget.trans (hsuits.types _ hleaf rfl)

/-- The name of a call is that of its new callee. -/
theorem get?_callee (hsuits : tree.Suits b names) {callee site : Site} {arguments : Nat}
    (ho : .call x callee arguments site ∈ tree.occurrences .plain) :
    (tree.moveNames b.callees names).get? callee.id =
      (b.callees.get? site.id).bind fun fresh => names.get? fresh := by
  obtain ⟨call, hcall, hplain, m, hm, hmid, hid⟩ : ∃ call ∈ tree.preorder,
      call.isPlainCall = true ∧ ∃ m ∈ call.along [0, 0], m.id = callee.id ∧
        call.id = site.id := by
    cases occurrence_about h.fit ho with
    | call hcall => exact ⟨_, hcall, rfl, _, List.mem_singleton_self _, rfl, rfl⟩
  have hmem := mem_preorder_trans hcall (mem_along hm)
  have hnone := hsuits.types m hmem (kind_calleeName hplain hm)
  have hget := h.get?_moveNames names hmem
  rw [Distinct.calleeFor_eq h.ids.nodup hcall hplain hm, hmid, hid] at hget
  rw [hget]
  cases b.callees.get? site.id with
  | none => rwa [hmid] at hnone
  | some fresh => rfl

/-- The occurrences of the tree with new names do the same. -/
theorem admitsAll (hsuits : tree.Suits b names)
    (hrenames : tree.Renames (tree.moveNames b.callees names) tree') (hfit : tree'.AllFit) :
    (Binding.initial tree.span last).names.AdmitsAll (tree.occurrences .plain)
      (tree'.occurrences .plain) := by
  refine .of_forall₂ (hrenames.occurrences h.fit hfit .plain) ?_
  intro before o after o' hos hrenames
  have ho : o ∈ tree.occurrences .plain := by simp [hos]
  cases hrenames with
  | enter => exact .enter
  | leave => exact .leave
  | declareVariable => exact .declareVariable
  | useVariable => exact .useVariable
  | declareFunction => exact .declareFunction
  | defineFunction => exact .defineFunction
  | declareType =>
    rw [h.keeps_type hsuits (.inl ho)]
    exact .declareType
  | useType =>
    rw [h.keeps_type hsuits (.inr ho)]
    exact .useType
  | @call x callee callee' arguments arguments' site site' hcallee hsite =>
    refine .call hsite ?_
    rw [h.get?_callee hsuits ho]
    cases hexchanged : b.callees.get? site.id with
    | none => exact .inl rfl
    | some fresh =>
      cases hname : names.get? fresh with
      | none => exact .inl (by simp [hname])
      | some name =>
        right
        rw [h.names] at hexchanged
        refine ⟨fun hknown => ?_, fun hknown => ?_⟩
        · -- A type would be registered under the name.
          obtain ⟨s, hs, hsome⟩ := Names.foldl_types hknown.exists_scope
            (.call x callee arguments site :: after)
          rw [← List.foldl_append, ← hos, ← h.names] at hs
          rw [← h.names] at hexchanged
          simp [hname, hsuits.callees site.id fresh name hexchanged hname s hs] at hsome
        · -- The callee would not be exchanged afterwards.
          by_contra hnone
          have hkeeps := (h.fit.exchanges h.ids.nodup .plain
            (Binding.initial tree.span last).names).types before x callee arguments site after
              hos hknown (Option.eq_none_iff_forall_not_mem.mpr fun v hv => hnone ⟨v, hv⟩)
          rw [hkeeps] at hexchanged
          cases hexchanged

/-- The tree of the program with new names comes from the tree with the names moved. -/
theorem relabel_root (names : Registry NodeId String) :
    p.root.relabel names =
      (tree.relabel (tree.moveNames b.callees names)).exchangeCallees b.callees := by
  rw [h.root]
  exact h.fit.relabel_exchangeCallees h.ids.nodup (Distinct.moved h.ids.nodup names)

/-- Names that suit the tree are given to names. -/
theorem givesNames (hsuits : tree.Suits b names) :
    tree.GivesNames (tree.moveNames b.callees names) := by
  intro m hm _ name hget
  rw [h.get?_moveNames names hm] at hget
  exact hsuits.identifiers _ name hget

end Program.BoundAs

/-! ### Programs -/

section Reparse

variable {options : Options} {text : String} {tree : Node} {b : Binding}
  {names : Registry NodeId String} (htree : Program.readText text options = .ok tree)
  (hbind : Binding.ofTree options.policy (tree.number 0).1 (tree.number 0).2 = (.ok (), b))
  (hstrict : options.strict = false) (hsuits : (tree.number 0).1.Suits b.names names)

include htree hbind hstrict hsuits

/-- The text of a program with new names is read as the tree with the names moved, and bound. -/
theorem Program.reread_of_suits : ∃ tree' b',
      readTree options.start
        ⟨Lexemes.ofString (((tree.number 0).1.exchangeCallees b.callees).relabel names).source,
          options.located⟩ options.source = .ok tree' ∧
      Binding.ofTree options.policy (tree'.number 0).1 (tree'.number 0).2 = (.ok (), b') ∧
      parse (((tree.number 0).1.exchangeCallees b.callees).relabel names).source options =
        .ok ⟨(tree'.number 0).1.exchangeCallees b'.callees, b'.scopes, b'.diagnostics⟩ ∧
      (tree.number 0).1.Renames ((tree.number 0).1.moveNames b.callees names) (tree'.number 0).1 ∧
      (tree'.number 0).2 = (tree.number 0).2 ∧ b.names.Parallel b'.names := by
  have hbound := boundAs_of_ofTree htree hbind
  obtain ⟨tree', htree', hbare, hlast⟩ :=
    readTree_relabel htree (hbound.givesNames hsuits) options.located options.source
  have hsource := congrArg Node.source (hbound.relabel_root names)
  rw [source_exchangeCallees] at hsource
  rw [← hsource] at htree'
  obtain ⟨b', hbind', hparse⟩ := parse_of_readTree hstrict htree'
  have hbound' := boundAs_of_ofTree htree' hbind'
  refine ⟨tree', b', htree', hbind', hparse, hbare, hlast, ?_⟩
  rw [hbound.names, hbound'.names, hlast]
  exact (Names.parallel_initial _ _ _).foldl (hbound.admitsAll hsuits hbare hbound'.fit)

/-- **The text of a program with new names is that of the program**, if the names suit it. -/
theorem Program.reparse_of_suits : ∃ p', parse
        (((tree.number 0).1.exchangeCallees b.callees).relabel names).source options = .ok p' ∧
      p'.root.bare = (((tree.number 0).1.exchangeCallees b.callees).relabel names).bare := by
  obtain ⟨tree', b', htree', -, hparse, hrenames, -, hparallel⟩ :=
    reread_of_suits htree hbind hstrict hsuits
  refine ⟨_, hparse, ?_⟩
  have hfit := number_allFit (readTree_allFit htree) 0
  have hfit' := number_allFit (readTree_allFit htree') 0
  have hrelabel := (boundAs_of_ofTree htree hbind).relabel_root names
  calc ((tree'.number 0).1.exchangeCallees b'.callees).bare
      = (tree'.number 0).1.bare.exchangeCallees b'.callees := hfit'.retoken_exchangeCallees _ _
    _ = ((tree.number 0).1.relabel
          ((tree.number 0).1.moveNames b.callees names)).bare.exchangeCallees b.callees := by
        rw [show b'.callees = b.callees from hparallel.callees, hrenames]
    _ = (((tree.number 0).1.relabel
          ((tree.number 0).1.moveNames b.callees names)).exchangeCallees b.callees).bare :=
        ((hfit.relabel _).retoken_exchangeCallees _ _).symm
    _ = (((tree.number 0).1.exchangeCallees b.callees).relabel names).bare :=
        congrArg bare hrelabel.symm

end Reparse

/-! ### Renamed programs -/

section Renamed

variable {τ : Type} {mangle : Mangle τ} {mangling : τ} {root : Node} {scope : Scope}
  {target : RenameTarget} {i : NodeId} {new : String}

/-- New names are answers. -/
theorem Node.mem_answers_of_renamed
    (h : (root.renamed scope target mangle mangling).1.get? i = some new) :
    new ∈ ((mangle.answers (root.referencesTo scope target)).run mangling).1 := by
  obtain ⟨⟨c, answer⟩, hmem, heq⟩ := List.mem_filterMap.mp (Registry.mem_of_get? h)
  obtain ⟨leaf, -, hpair⟩ := Option.map_eq_some_iff.mp heq
  cases hpair
  exact (List.of_mem_zip hmem).2

/-- New names are for the leaves of references. -/
theorem Node.Serves.bears_of_renamed (hserves : root.Serves scope target)
    (h : (root.renamed scope target mangle mangling).1.get? i = some new) :
    ∃ n ∈ root.preorder, ∃ name, scope.Refers target name n.id ∧
      ∃ leaf, root.Bears target n leaf ∧ leaf.id = i := by
  obtain ⟨n, hn, hlisted, leaf, hleaf, hid⟩ := Rename.mem_newNames (Registry.mem_of_get? h)
  obtain ⟨name, hname⟩ := Option.ne_none_iff_exists'.mp hlisted
  obtain ⟨leaf', hbears⟩ := hserves.retains.bears_of_mem hn (Scope.refers_of_nameOf? hname)
  obtain rfl : leaf' = leaf := Except.ok.inj (hbears.namedLeaf.symm.trans hleaf)
  exact ⟨n, hn, name, Scope.refers_of_nameOf? hname, leaf', hbears, hid⟩

end Renamed

namespace Program.BoundAs

variable {p : Program} {tree : Node} {last : NodeId} {b : Names} (h : p.BoundAs tree last b)
  {scope : Scope} (hscope : scope ∈ p.scopes.scopes) {target : RenameTarget} {τ : Type}
  {mangle : Mangle τ} {mangling : τ}

include h

/-- A variable is not a new callee. -/
theorem variable_mem {i : NodeId} (href : p.scopes.Refers .vars x i) : i ∈ tree.ids := by
  obtain ⟨o, hreg, habout⟩ := h.registered href
  cases hreg with
  | declaredVariable =>
    cases habout with
    | declareVariable hleaf => exact id_mem_ids hleaf
  | usedVariable =>
    cases habout with
    | useVariable hleaf => exact id_mem_ids hleaf

include hscope

/-- New names for variables suit the tree if they are identifiers. So do those for functions, if
they are not names of types. -/
theorem suits_renamed
    (hnames : ∀ new ∈ ((mangle.answers (p.root.referencesTo scope target)).run mangling).1,
      Scan.isIdentifier new = true)
    (htarget : target = .vars ∨ target = .functions ∧
      ∀ new ∈ ((mangle.answers (p.root.referencesTo scope target)).run mangling).1,
        ∀ s ∈ p.scopes.scopes, s.types.get? new = none) :
    tree.Suits b (p.root.renamed scope target mangle mangling).1 := by
  have htypes : target ≠ .types := by
    rcases htarget with rfl | ⟨rfl, -⟩ <;> simp
  have hserves := h.serves hscope htypes
  refine ⟨fun i new hget => ?_, fun m hm hkind => ?_, fun site fresh new hexchanged hget => ?_⟩
  · exact hnames new (mem_answers_of_renamed hget)
  · -- New names are for identifiers.
    refine Option.eq_none_iff_forall_not_mem.mpr fun new hget => ?_
    obtain ⟨n, hn, name, -, leaf, hbears, hid⟩ := hserves.bears_of_renamed hget
    obtain ⟨id, span, t, rfl⟩ := hbears.eq_leaf
    have hidentifier : target.leafKind = .identifier := by
      rcases htarget with rfl | ⟨rfl, -⟩ <;> rfl
    rcases h.mem_root_cases (mem_preorder_trans hn hbears.mem) with
      ⟨m', hm', heq⟩ | ⟨-, ⟨site, hsite⟩, -⟩
    · have hid' := congrArg Node.id heq
      rw [hid, id_exchangeCallees] at hid'
      obtain rfl := Distinct.eq_of_id h.ids.nodup hm hm' hid'
      have hkind' := congrArg kind heq
      rw [kind_exchangeCallees, hkind, Node.leaf, kind_mk, hidentifier] at hkind'
      cases hkind'
    · exact absurd (hid ▸ id_mem_ids hm) (h.fresh hsite)
  · rcases htarget with rfl | ⟨-, hfunctions⟩
    · -- The name would be that of a variable.
      obtain ⟨n, -, name, href, leaf, hbears, hid⟩ := hserves.bears_of_renamed hget
      cases hbears
      have hmem := h.variable_mem ⟨scope, hscope, href⟩
      exact absurd (hid ▸ hmem) (h.fresh hexchanged)
    · rw [← h.scopes]
      exact hfunctions new (mem_answers_of_renamed hget)

end Program.BoundAs

/-- **Renamed programs are programs**: if variables of a scope get names that are identifiers, or
functions names that are not those of types either, then the text of the renamed tree is read, with
the same options, as that tree. -/
theorem Program.parse_of_rename {text : String} {options : Options} {p : Program}
    (hp : Program.parse text options = .ok p) (hstrict : options.strict = false) {scope : Scope}
    (hscope : scope ∈ p.scopes.scopes) {target : RenameTarget} {τ : Type} (mangle : Mangle τ)
    (mangling : τ)
    (hnames : ∀ new ∈ ((mangle.answers (p.root.referencesTo scope target)).run mangling).1,
      Scan.isIdentifier new = true)
    (htarget : target = .vars ∨ target = .functions ∧
      ∀ new ∈ ((mangle.answers (p.root.referencesTo scope target)).run mangling).1,
        ∀ s ∈ p.scopes.scopes, s.types.get? new = none) :
    (p.root.rename scope target mangle mangling).error = none ∧
      ∃ p', Program.parse (p.root.rename scope target mangle mangling).root.source options =
        .ok p' ∧ p'.root.same (p.root.rename scope target mangle mangling).root = true := by
  obtain ⟨tree, b, htree, hbind, rfl⟩ := Program.parse_eq_ok hp
  have hbound := Program.boundAs_of_ofTree htree hbind
  have htypes : target ≠ .types := by
    rcases htarget with rfl | ⟨rfl, -⟩ <;> simp
  obtain ⟨herror, hroot, -⟩ := (hbound.serves hscope htypes).rename_eq mangle mangling
  obtain ⟨p', hparse, hbare⟩ := Program.reparse_of_suits htree hbind hstrict
    (hbound.suits_renamed hscope hnames htarget)
  rw [hroot]
  exact ⟨herror, p', hparse, same_of_bare hbare⟩

/-- Functions that all get the same name, in a program that also calls a type. -/
theorem Program.parse_of_rename_calls :
    ∃ p scope,
      Program.parse ("struct S \x7b int a; \x7d; int f(int a) \x7b return a; \x7d " ++
        "int g(int b) \x7b return f(b) + S(b).a + k(1); \x7d") Options.default = .ok p ∧
      scope ∈ p.scopes.scopes ∧
      (p.root.rename scope .functions (fun _ _ => pure "h") ()).root.source =
        "struct S \x7b int a; \x7d; int h(int a) \x7b return a; \x7d " ++
        "int h(int b) \x7b return h(b) + S(b).a + h(1); \x7d" ∧
      ∃ p', Program.parse (p.root.rename scope .functions (fun _ _ => pure "h") ()).root.source
          Options.default = .ok p' ∧
        p'.root.same (p.root.rename scope .functions (fun _ _ => pure "h") ()).root = true := by
  refine Program.exists_of_parse (fun p hparse (h : p.scopes.root ∈ p.scopes.scopes ∧ _ ∧
      ∀ new ∈ ((Mangle.answers (fun _ _ => pure "h")
        (p.root.referencesTo p.scopes.root .functions)).run ()).1,
        Scan.isIdentifier new = true ∧ ∀ s ∈ p.scopes.scopes, s.types.get? new = none) =>
    ⟨_, hparse, h.1, h.2.1, (Program.parse_of_rename hparse rfl h.1 (fun _ _ => pure "h") ()
      (fun new hnew => (h.2.2 new hnew).1)
      (.inr ⟨rfl, fun new hnew => (h.2.2 new hnew).2⟩)).2⟩) ?_
  decide +kernel

end ShaderSource
