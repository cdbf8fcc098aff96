import ShaderSource.Proofs.Reports

/-!
# Diagnostics match the registries

What is reported about a function depends on what its registration finds among the functions of its
name: a call that finds none is reported, and a prototype or definition that finds one which is
declared or defined already. Since the nodes of a function are listed in the order in which they are
registered, all this can be read off their list in the end: whether the first node is a call, which
prototypes come behind another declaration, and which definitions come behind another one.

What one step reports is told by the registries: it is what they show after it and did
not show before.

## Main results

* `ScopeTree.kind_problem?`: what is reported about a registration, by what it finds.
* `Names.MatchesTree.step`: a step keeps the registries true of the tree.
* `Names.MatchesTree.reports_functions`: what a step reports about functions.
* `Program.diagnosed_of_parse`: the diagnostics of a program that was read.
-/

namespace ShaderSource

open Diagnostic List Option Overload Registration Registry ScopeTree

variable {r : Registration} {β : Type} {os : List Occurrence} {kinds : List DiagnosticKind}

/-! ### Functions -/

/-- What is wrong with a registration of a function, if it finds what is `known`. Whether the name
has functions at all is told by `named`. -/
def Registration.fault? (r : Registration) (named : Bool) (known : Option Overload) :
    Option DiagnosticKind :=
  match r with
  | .declare _ =>
    if known.any (fun o => o.declaration.isSome) then some .duplicatePrototype else none
  | .define _ => if known.any defined then some .duplicateFunction else none
  | .call _ =>
    if known.isSome then none else some (if named then .noMatchingOverload else .undeclaredFunction)

theorem Registration.isCall_of_fault {named : Bool} {known : Option Overload}
    (h : (r.fault? named known).any [.undeclaredFunction, .noMatchingOverload].contains = true) :
    r.isCall = true := by
  cases r with
  | declare | define =>
    simp only [fault?] at h
    split at h <;> cases h
  | call => rfl

/-- What is gathered from the nodes of the functions of a name, when one of them has one more. -/
theorem Overloads.flatMap_references {os os' : Overloads} {f : List NodeId → List β}
    {xs : List β} (hnil : f [] = []) {key key' : String} {o' : Overload}
    (hget : Registry.get? key' os' = some o')
    (herase : Registry.erase key' os' = Registry.erase key os)
    (hreferences : (f o'.references).Perm
      (xs ++ f (((Registry.get? key os).map Overload.references).getD []))) :
    (os'.flatMap fun e => f e.2.references).Perm (xs ++ os.flatMap fun e => f e.2.references) := by
  have hrest : (os.flatMap fun e => f e.2.references).Perm
      (f (((Registry.get? key os).map Overload.references).getD []) ++
        (Registry.erase key os).flatMap fun e => f e.2.references) := by
    cases hknown : Registry.get? key os with
    | none =>
      rw [erase_of_get?_eq_none hknown, map_none, getD_none, hnil]
      exact .refl _
    | some o => exact flatMap_erase hknown _
  refine (flatMap_erase hget _).trans ?_
  rw [herase]
  refine (hreferences.append_right _).trans ?_
  rw [append_assoc]
  exact hrest.symm.append_left xs

namespace ScopeTree

variable {t : ScopeTree} {r : Registration} {name : String} {node : NodeId}

/-- What a declaration adopts is declared and defined as what it finds. -/
theorem adopt?_of_finds {os : Overloads} {known : Option Overload} (h : r.Finds os known)
    (hr : r.isCall = false)
    (hdefined : ∀ e ∈ os, e.2.declaration = none → e.2.defined = false) :
    (os.adopt? r.signature).map (fun e => (e.2.declaration.isSome, e.2.defined)) =
      known.map fun o => (o.declaration.isSome, o.defined) := by
  cases h with
  | called hcall =>
    rw [hr] at hcall
    cases hcall
  | redeclared _ hget =>
    rw [Overloads.adopt?, hget]
    rfl
  | @takenOver key o _ hnew hget hcalled hagrees =>
    have ho := Registry.mem_of_get? hget
    cases hawaiting : os.awaiting? r.signature with
    | none =>
      have hdiffers := Overloads.awaiting?_eq_none hawaiting _ ho hcalled
      rw [hagrees] at hdiffers
      cases hdiffers
    | some e =>
      -- Functions that are only called are alike in this.
      have hfound := find?_some hawaiting
      simp only [Bool.and_eq_true, isNone_iff_eq_none] at hfound
      have hdefined' := hdefined e (mem_of_find?_eq_some hawaiting) hfound.1
      have hdefined'' : o.defined = false := hdefined _ ho hcalled
      rw [Overloads.adopt?, hnew, hawaiting]
      simp [hfound.1, hdefined', hcalled, hdefined'']
  | nothing hnew hothers =>
    have hawaiting : os.awaiting? r.signature = none := by
      refine find?_eq_none.mpr fun e he hfound => ?_
      simp only [Bool.and_eq_true, isNone_iff_eq_none] at hfound
      rw [hothers _ he (.inr hfound.1)] at hfound
      cases hfound.2
    rw [Overloads.adopt?, hnew, hawaiting]
    rfl

/-- A call finds a function if one agrees with it. -/
theorem callee?_of_finds {os : Overloads} {known : Option Overload} {n : Nat}
    (h : (Registration.call n).Finds os known) :
    (os.callee? (Signature.call n)).isSome = known.isSome := by
  cases h with
  | called _ hget hagrees =>
    exact find?_isSome.mpr ⟨_, Registry.mem_of_get? hget, hagrees⟩
  | redeclared hcall | takenOver hcall => cases hcall
  | nothing _ hothers =>
    rw [isSome_none, isSome_eq_false_iff, isNone_iff_eq_none]
    refine find?_eq_none.mpr fun e he => ?_
    rw [Bool.not_eq_true]
    exact hothers e he (.inl rfl)

/-- What is reported about a registration depends on what it finds. -/
theorem kind_problem? (node : NodeId) {known : Option Overload}
    (h : r.Finds (t.overloads name) known)
    (hdefined : ∀ e ∈ t.overloads name, e.2.declaration = none → e.2.defined = false) :
    (t.problem? r name node).map Problem.kind = r.fault? (t.lookupFunction name).isSome known := by
  cases r with
  | declare s =>
    have hproblem : (t.declareFunction name s node).2.map Problem.kind =
        if (((t.overloads name).adopt? s).map fun e =>
            (e.2.declaration.isSome, e.2.defined)).any Prod.fst then
          some .duplicatePrototype else none := by
      rw [declareFunction]
      cases (t.overloads name).adopt? s with
      | none => rfl
      | some e => cases hdeclared : e.2.declaration.isSome <;> simp [hdeclared, Problem.kind]
    rw [problem?, hproblem, show s = (Registration.declare s).signature from rfl,
      adopt?_of_finds h rfl hdefined]
    cases known <;> rfl
  | define s =>
    have hproblem : (t.defineFunction name s node).2.map Problem.kind =
        if (((t.overloads name).adopt? s).map fun e =>
            (e.2.declaration.isSome, e.2.defined)).any Prod.snd then
          some .duplicateFunction else none := by
      rw [defineFunction]
      cases (t.overloads name).adopt? s with
      | none => rfl
      | some e => cases he : e.2.defined <;> simp [he, Problem.kind]
    rw [problem?, hproblem, show s = (Registration.define s).signature from rfl,
      adopt?_of_finds h rfl hdefined]
    cases known <;> rfl
  | call n =>
    rw [fault?, ← callee?_of_finds h]
    simp only [problem?, callFunction]
    cases (t.overloads name).callee? (Signature.call n) with
    | none => cases (t.lookupFunction name).isSome <;> rfl
    | some e => rfl

/-- All functions with their names. -/
def allFunctions (t : ScopeTree) : List (String × Overload) :=
  t.root.functions.flatMap fun e => e.2.map fun f => (e.1, f.2)

section Gather

variable {β : Type} {f : String → List NodeId → List β} {xs : List β}

theorem functions_setOverloads (h : 0 < t.size) (os : Overloads) :
    (t.setOverloads name os).root.functions = t.root.functions.insert name os := by
  rw [root_setOverloads h]

/-- What a registration adds to what `f` takes from the functions of its name, it adds for all
functions. -/
theorem allFunctions_register (h : 0 < t.size)
    (hgather : (((t.register r name node).overloads name).flatMap fun e =>
      f name e.2.references).Perm
        (xs ++ (t.overloads name).flatMap fun e => f name e.2.references)) :
    ((t.register r name node).allFunctions.flatMap fun e => f e.1 e.2.references).Perm
      (xs ++ t.allFunctions.flatMap fun e => f e.1 e.2.references) := by
  obtain ⟨os, hos⟩ := t.register_eq_setOverloads r name node
  have hflat : ∀ t : ScopeTree, (t.allFunctions.flatMap fun e => f e.1 e.2.references) =
      t.root.functions.flatMap fun e => e.2.flatMap fun o => f e.1 o.2.references := by
    intro t
    simp [allFunctions, flatMap_assoc, flatMap_map]
  rw [hos, overloads_setOverloads h, if_pos rfl] at hgather
  rw [hos, hflat, hflat, functions_setOverloads h]
  refine flatMap_insert_append
    (f := fun e : String × Overloads => e.2.flatMap fun o => f e.1 o.2.references) ?_
  refine hgather.trans ?_
  rw [overloads, lookupFunction]
  cases Registry.get? name t.root.functions <;> exact .refl _

end Gather

end ScopeTree

namespace Overload

variable (root : Node)

/-- The first node of the function, if it is a call. -/
def firstCall (references : List NodeId) : List NodeId :=
  (references.take 1).filter (root.isAny [.functionCall])

/-- The prototypes of the function that another prototype or a definition of it precedes. -/
def laterPrototypes (references : List NodeId) : List NodeId :=
  (references.filter (root.isAny Kind.declaring)).tail.filter (root.isAny [.functionPrototype])

/-- The definitions of the function that another one precedes. -/
def laterDefinitions (references : List NodeId) : List NodeId :=
  (references.filter (root.isAny [.functionDefinition])).tail

end Overload

namespace Names

variable {b : Names} {root : Node} {o : Occurrence}

/-- The kinds of what is reported about functions. -/
def functionKinds : List DiagnosticKind :=
  [.undeclaredFunction, .noMatchingOverload, .duplicatePrototype, .duplicateFunction]

/-- What is reported about functions is about what is registered. -/
theorem reports_registration (b : Names) (o : Occurrence) :
    (∀ r name node, b.registration? o = some (r, name, node) →
      ∃ span, b.reports o = Site.reports ⟨node, span⟩ (b.scopes.problem? r name node)) ∧
    (b.registration? o = none → ∀ d ∈ b.reports o, d.kind ∉ functionKinds) := by
  rw [registration?_eq, reports_eq]
  cases hact : (b.effect o).act with
  | register r name =>
    refine ⟨fun r' name' node h => ?_, fun h => (by cases h)⟩
    cases h
    exact ⟨(b.effect o).site.span, rfl⟩
  | nothing => exact ⟨fun r name node h => (by cases h), fun _ d hd => (by cases hd)⟩
  | declare c name | use c name =>
    refine ⟨fun r name node h => (by cases h), fun _ d hd => ?_⟩
    rw [← hact, ← reports_eq] at hd
    have hkind := kind_of_reports hd
    rw [hact] at hkind
    rw [mem_singleton.mp hkind]
    cases c <;> simp [duplicate, undeclared, Problem.kind, functionKinds]

theorem registration?_call {name : String} {node : NodeId}
    (h : b.registration? o = some (r, name, node)) (hr : r.isCall = true) :
    ∃ callee arguments site, o = .call name callee arguments site ∧ site.id = node := by
  cases o with
  | declareFunction | defineFunction =>
    cases h
    cases hr
  | call name' callee arguments site =>
    simp only [registration?] at h
    split at h
    · cases h
    · split at h
      · cases h
        exact ⟨callee, arguments, site, rfl, rfl⟩
      · cases h
  | _ => cases h

/-- Of the reports about functions, those of some kinds are gathered by `f` from the nodes of the
functions, up to `g`: it gathers one more when a function gains a node that is reported. -/
structure Gathers {β : Type} (root : Node) (kinds : List DiagnosticKind)
    (f : String → List NodeId → List β) (g : NodeId → β) : Prop where
  about : ∀ k ∈ kinds, k ∈ functionKinds
  nil : ∀ name, f name [] = []
  gain : ∀ (r : Registration) (name : String) (n : Node) (named : Bool) (known : Option Overload),
    n ∈ root.preorder → r.At n → (r.isCall = true → root.calledAt? n.id = some name) →
    (∀ o ∈ known, o.Consistent root ∧ o.references ≠ []) →
      f name ((known.map references).getD [] ++ [n.id]) =
        f name ((known.map references).getD []) ++
          if (r.fault? named known).any kinds.contains then [g n.id] else []

namespace MatchesTree

section Functions

variable (h : b.MatchesTree root)

include h

/-- A function that a registration finds is consistent and has references. -/
theorem known {name key : String} {known : Overload}
    (hget : Registry.get? key (b.scopes.overloads name) = some known) :
    known.Consistent root ∧ known.references ≠ [] := by
  have hmem := Registry.mem_of_get? hget
  exact ⟨(h.functions name).consistent _ hmem, h.called name _ hmem⟩

theorem defined_of_called (name : String) :
    ∀ e ∈ b.scopes.overloads name, e.2.declaration = none → e.2.defined = false := by
  intro e he hnone
  rw [← Bool.not_eq_true]
  exact fun hdefined => ((h.functions name).consistent e he).declared_of_defined hdefined hnone

/-- A function that is registered has nodes. -/
theorem called_step (o : Occurrence) (x : String) :
    ∀ e ∈ (b.step o).scopes.overloads x, e.2.references ≠ [] := by
  obtain ⟨hsome, hnone⟩ := b.overloads_step o
  cases hr : b.registration? o with
  | none =>
    rw [hnone hr]
    exact h.called x
  | some e =>
    obtain ⟨r, name, node⟩ := e
    rw [hsome r name node hr]
    obtain ⟨hregistered, hothers⟩ := h.valid.scopes.registered r name node
    by_cases hx : x = name
    · subst hx
      obtain ⟨key, key', o', -, hget, herase, hreferences⟩ :=
        hregistered.finds (h.valid.scopes.keyed x)
      have hkeyed := (h.valid.step o).scopes.keyed x
      rw [hsome r x node hr] at hkeyed
      intro e he
      by_cases hkey : e.1 = key'
      · have hsame := hkeyed.get?_of_mem he
        rw [hkey, hget] at hsame
        rw [← some.inj hsame, hreferences]
        simp
      · have hkept := get?_erase hkeyed.unique key' e.1
        rw [if_neg (Ne.symm hkey), hkeyed.get?_of_mem he, herase] at hkept
        exact h.called x e (mem_erase (Registry.mem_of_get? hkept))
    · rw [hothers x hx]
      exact h.called x

variable (hroot : root.Distinct) (ho : o.MatchesTree root)

include hroot ho

/-- **A step keeps the registries true of the tree.** -/
theorem step : (b.step o).MatchesTree root where
  valid := h.valid.step o
  bindings := h.bindings_step ho
  functions := sound_step hroot h.valid h.functions ho.functions
  called := h.called_step o

omit hroot in
/-- What a step reports about functions is what is gathered from their nodes after it, and was not
before. -/
theorem reports_functions {f : String → List NodeId → List β} {g : NodeId → β}
    (hf : Gathers root kinds f g) :
    ((b.step o).scopes.allFunctions.flatMap fun e => f e.1 e.2.references).Perm
      ((nodesOf kinds (b.reports o)).map g ++
        b.scopes.allFunctions.flatMap fun e => f e.1 e.2.references) := by
  obtain ⟨hsome, hnone⟩ := b.functions_step o
  obtain ⟨hreports, hsilent⟩ := b.reports_registration o
  have hfunctions : ∀ {t t' : ScopeTree}, t.root.functions = t'.root.functions →
      t.allFunctions = t'.allFunctions := fun heq => by
    rw [allFunctions, heq, allFunctions]
  cases hr : b.registration? o with
  | none =>
    rw [hfunctions (hnone hr), nodesOf_eq_nil fun d hd hkind =>
      hsilent hr d hd (hf.about _ hkind)]
    exact .refl _
  | some e =>
    obtain ⟨r, name, node⟩ := e
    obtain ⟨span, hspan⟩ := hreports r name node hr
    obtain ⟨n, hn, rfl, hat⟩ := ho.functions b r name node hr
    obtain ⟨key, key', o', hfinds, hget, herase, hreferences⟩ :=
      (h.valid.scopes.registered r name n.id).1.finds (h.valid.scopes.keyed name)
    have hcalled : r.isCall = true → root.calledAt? n.id = some name := by
      intro hcall
      obtain ⟨callee, arguments, site, rfl, hsite⟩ := registration?_call hr hcall
      rw [← hsite]
      exact ho.called rfl
    have hgained := hf.gain r name n (b.scopes.lookupFunction name).isSome
      (Registry.get? key (b.scopes.overloads name)) hn hat hcalled fun o ho => h.known ho
    have hkind := kind_problem? n.id hfinds (h.defined_of_called name)
    have hnodes : nodesOf kinds (b.reports o) =
        if (r.fault? (b.scopes.lookupFunction name).isSome
          (Registry.get? key (b.scopes.overloads name))).any kinds.contains then [n.id]
        else [] := by
      rw [hspan, nodesOf_reports, ← hkind, Option.any_map]
    rw [hfunctions (hsome r name n.id hr), hnodes]
    refine allFunctions_register h.valid.scopes.nonempty ?_
    refine Overloads.flatMap_references (hf.nil name) hget herase ?_
    rw [hreferences, hgained]
    split
    · exact perm_append_comm
    · exact .of_eq (append_nil _)

end Functions

/-- What `f` takes from the nodes of a function gains the node exactly if something of the given
kinds is wrong with its registration. -/
abbrev Gains (r : Registration) (n : Node) (named : Bool) (known : Option Overload)
    (f : List NodeId → List NodeId) (kinds : List DiagnosticKind) : Prop :=
  f ((known.map references).getD [] ++ [n.id]) = f ((known.map references).getD []) ++
    if (r.fault? named known).any kinds.contains then [n.id] else []

section Gains

variable {r : Registration} {n : Node} {named : Bool} {known : Option Overload}
  (hroot : root.Distinct) (hn : n ∈ root.preorder) (hr : r.At n)
  (hknown : ∀ o ∈ known, o.Consistent root ∧ o.references ≠ [])

include hroot hn hr hknown

/-- A function gains its first node from a registration that finds nothing. -/
theorem firstCall_gain :
    Gains r n named known (firstCall root) [.undeclaredFunction, .noMatchingOverload] := by
  unfold Gains
  cases known with
  | none =>
    cases hr with
    | declare hkind _ | define hkind _ =>
      simp [firstCall, hroot.isAny hn, hkind, fault?]
    | call hkind =>
      cases named <;> simp [firstCall, hroot.isAny hn, hkind, fault?]
  | some o =>
    have hne := (hknown o rfl).2
    have hfault : (r.fault? named (some o)).any
        [.undeclaredFunction, .noMatchingOverload].contains = false := by
      cases r with
      | declare | define =>
        simp only [fault?]
        split <;> rfl
      | call => rfl
    rw [hfault, map_some, getD_some, firstCall, take_one_concat hne]
    exact (append_nil _).symm

/-- A function gains a later prototype from one that finds it declared. -/
theorem laterPrototypes_gain :
    Gains r n named known (laterPrototypes root) [.duplicatePrototype] := by
  have hdeclared : ((known.map references).getD []).any (root.isAny Kind.declaring) =
      known.any fun o => o.declaration.isSome := by
    cases known with
    | none => rfl
    | some o =>
      rw [any_some, (hknown o rfl).1.declaration, Bool.eq_iff_iff, find?_isSome]
      exact any_eq_true
  rw [Gains, laterPrototypes, tail_filter_concat, hdeclared, filter_append,
    hroot.isAny hn, laterPrototypes]
  congr 1
  cases hr with
  | declare hkind _ =>
    cases hany : known.any fun o => o.declaration.isSome <;>
      simp [fault?, hany, hkind, hroot.isAny hn, Kind.declaring]
  | define hkind _ =>
    cases hany : known.any fun o => o.declaration.isSome <;>
      cases hdefined : known.any defined <;>
        simp [fault?, hdefined, hkind, hroot.isAny hn, Kind.declaring]
  | call hkind =>
    cases known <;> cases named <;> simp [fault?, hkind, Kind.declaring]

/-- A function gains a later definition from one that finds it defined. -/
theorem laterDefinitions_gain :
    Gains r n named known (laterDefinitions root) [.duplicateFunction] := by
  have hdefined : ((known.map references).getD []).any
      (root.isAny [.functionDefinition]) = known.any defined := by
    cases known with
    | none => rfl
    | some o => rw [any_some, (hknown o rfl).1.defined]; rfl
  rw [Gains, laterDefinitions, tail_filter_concat, hdefined, hroot.isAny hn,
    laterDefinitions]
  congr 1
  cases hr with
  | declare hkind _ =>
    cases hany : known.any fun o => o.declaration.isSome <;>
      simp [fault?, hany, hkind]
  | define hkind _ =>
    cases hany : known.any defined <;> simp [fault?, hany, hkind]
  | call hkind => cases known <;> cases named <;> simp [fault?, hkind]

end Gains

section Gathers

variable (hroot : root.Distinct)

include hroot

theorem gathers_firstCall : Gathers root [.undeclaredFunction, .noMatchingOverload]
    (fun name references => (firstCall root references).map fun i => (some name, i))
    (fun i => (root.calledAt? i, i)) where
  about := by decide
  nil _ := rfl
  gain r name n named known hn hr hcalled hknown := by
    have hgain : Gains r n named known _ _ := firstCall_gain hroot hn hr hknown
    rw [Gains] at hgain
    rw [hgain, map_append]
    split
    · rename_i hfault
      rw [map_singleton, hcalled (isCall_of_fault hfault)]
    · rfl

theorem gathers_laterPrototypes :
    Gathers root [.duplicatePrototype] (fun _ => laterPrototypes root) id where
  about := by decide
  nil _ := rfl
  gain _ _ _ _ _ hn hr _ hknown := laterPrototypes_gain hroot hn hr hknown

theorem gathers_laterDefinitions :
    Gathers root [.duplicateFunction] (fun _ => laterDefinitions root) id where
  about := by decide
  nil _ := rfl
  gain _ _ _ _ _ hn hr _ hknown := laterDefinitions_gain hroot hn hr hknown

end Gathers

section Run

variable (hroot : root.Distinct)

include hroot

theorem foldl (h : b.MatchesTree root) (hos : ∀ o ∈ os, o.MatchesTree root) :
    (os.foldl Names.step b).MatchesTree root := by
  induction os generalizing b with
  | nil => exact h
  | cons o os ih =>
    rw [forall_mem_cons] at hos
    exact ih (h.step hroot hos.1) hos.2

/-- If each step reports what can be gathered from the scopes after it and could not before, then a
run reports all that can be gathered after it and could not before. -/
theorem reportsAll {g : NodeId → β}
    {F : ScopeTree → List β}
    (hstep : ∀ (b : Names) (o : Occurrence), b.MatchesTree root → o.MatchesTree root →
      (F (b.step o).scopes).Perm
        ((nodesOf kinds (b.reports o)).map g ++ F b.scopes))
    (h : b.MatchesTree root) (hos : ∀ o ∈ os, o.MatchesTree root) :
    (F (os.foldl Names.step b).scopes).Perm
      ((nodesOf kinds (b.reportsAll os)).map g ++ F b.scopes) := by
  induction os generalizing b with
  | nil => exact .refl _
  | cons o os ih =>
    rw [forall_mem_cons] at hos
    rw [foldl_cons, Names.reportsAll, nodesOf_append, map_append]
    refine (ih (h.step hroot hos.1) hos.2).trans ?_
    refine ((hstep b o h hos.1).append_left _).trans ?_
    rw [append_assoc]
    exact perm_append_comm_assoc _ _ _

omit hroot in
/-- A name that is reported as that of a function which is not declared had no functions, and has
one then. -/
theorem reports_undeclaredFunction (h : b.MatchesTree root) (ho : o.MatchesTree root) :
    (∀ name, (b.step o).scopes.lookupFunction name = none →
      b.scopes.lookupFunction name = none) ∧
    (nodesOf [.undeclaredFunction] (b.reports o) = [] ∨
      ∃ name node, nodesOf [.undeclaredFunction] (b.reports o) = [node] ∧
        root.calledAt? node = some name ∧ b.scopes.lookupFunction name = none ∧
        (b.step o).scopes.lookupFunction name ≠ none) := by
  obtain ⟨hsome, hnone⟩ := b.functions_step o
  obtain ⟨hreports, hsilent⟩ := b.reports_registration o
  cases hr : b.registration? o with
  | none =>
    refine ⟨fun name => ?_, .inl (nodesOf_eq_nil fun d hd hkind => ?_)⟩
    · rw [lookupFunction, hnone hr]
      exact id
    · refine hsilent hr d hd ?_
      rw [mem_singleton.mp hkind]
      decide
  | some e =>
    obtain ⟨r, name, node⟩ := e
    have hinsert : ∃ os, (b.step o).scopes.root.functions =
        b.scopes.root.functions.insert name os := by
      obtain ⟨os, hos⟩ := b.scopes.register_eq_setOverloads r name node
      refine ⟨os, ?_⟩
      rw [hsome r name node hr, hos, functions_setOverloads h.valid.scopes.nonempty]
    obtain ⟨os, hos⟩ := hinsert
    refine ⟨fun name' hfree => ?_, ?_⟩
    · rw [lookupFunction, hos, get?_insert] at hfree
      split at hfree
      · cases hfree
      · exact hfree
    · obtain ⟨span, hspan⟩ := hreports r name node hr
      obtain ⟨key, -, -, hfinds, -⟩ :=
        (h.valid.scopes.registered r name node).1.finds (h.valid.scopes.keyed name)
      have hkind := kind_problem? node hfinds (h.defined_of_called name)
      rw [hspan, nodesOf_reports]
      split
      · right
        rename_i hany
        obtain ⟨q, hq, hqkind⟩ : ∃ q, b.scopes.problem? r name node = some q ∧
            q.kind = .undeclaredFunction := by
          cases hproblem : b.scopes.problem? r name node with
          | none =>
            rw [hproblem] at hany
            cases hany
          | some q =>
            rw [hproblem] at hany
            exact ⟨q, rfl, by simpa using hany⟩
        rw [hq, map_some, hqkind] at hkind
        cases r with
        | declare | define =>
          simp only [fault?] at hkind
          split at hkind <;> cases hkind
        | call n =>
          obtain ⟨callee, arguments, site, rfl, rfl⟩ := registration?_call hr rfl
          refine ⟨name, site.id, rfl, ho.called rfl, ?_, ?_⟩
          · simp only [fault?] at hkind
            split at hkind
            · cases hkind
            · split at hkind
              · cases hkind
              · rename_i hfree
                simpa using hfree
          · rw [lookupFunction, hos, get?_insert, if_pos rfl]
            exact some_ne_none _
      · exact .inl rfl

/-- Each name is reported at most once as that of a function which is not declared. -/
theorem nodup_undeclaredFunction (h : b.MatchesTree root) (hos : ∀ o ∈ os, o.MatchesTree root) :
    ((nodesOf [.undeclaredFunction] (b.reportsAll os)).map root.calledAt?).Nodup ∧
      ∀ x ∈ (nodesOf [.undeclaredFunction] (b.reportsAll os)).map root.calledAt?,
        ∃ name, x = some name ∧ b.scopes.lookupFunction name = none := by
  induction os generalizing b with
  | nil => exact ⟨nodup_nil, fun x hx => absurd hx not_mem_nil⟩
  | cons o os ih =>
    rw [forall_mem_cons] at hos
    obtain ⟨hnodup, hfree⟩ := ih (h.step hroot hos.1) hos.2
    obtain ⟨hkeeps, hreports⟩ := h.reports_undeclaredFunction hos.1
    rw [Names.reportsAll, nodesOf_append, map_append]
    have hrest : ∀ x ∈ (nodesOf [.undeclaredFunction]
        ((b.step o).reportsAll os)).map root.calledAt?,
        ∃ name, x = some name ∧ b.scopes.lookupFunction name = none := by
      intro x hx
      obtain ⟨name, hname, hnone⟩ := hfree x hx
      exact ⟨name, hname, hkeeps name hnone⟩
    rcases hreports with hnil | ⟨name, node, hnode, hcalled, hbefore, hafter⟩
    · rw [hnil]
      exact ⟨hnodup, hrest⟩
    · rw [hnode, map_singleton, hcalled, singleton_append]
      refine ⟨nodup_cons.mpr ⟨fun hmem => ?_, hnodup⟩, ?_⟩
      · obtain ⟨name', hname', hnone⟩ := hfree _ hmem
        cases hname'
        exact hafter hnone
      · rw [forall_mem_cons]
        exact ⟨⟨name, rfl, hbefore⟩, hrest⟩

end Run

theorem initial (root : Node) (span : Option Span) (last : NodeId) :
    (Binding.initial span last).names.MatchesTree root where
  valid := valid_initial span last
  bindings e he := by cases he
  functions x := .nil
  called x e he := by cases he

end MatchesTree

end Names

/-! ### Programs -/

/-- The nodes at which a program has diagnostics of some kinds. -/
def Program.reported (p : Program) (kinds : List DiagnosticKind) : List NodeId :=
  nodesOf kinds p.diagnostics

/-- The diagnostics of a program about variables and functions are what its registries show. -/
structure Program.Diagnosed (p : Program) : Prop where
  /-- A variable is not declared if the first node of its entry is a use. -/
  undeclaredVariables : (p.reported [.undeclaredVariable]).Perm
    (p.scopes.bindings.flatMap (Entry.firstUse p.root.declaresAt))
  /-- The declaration of an entry is the first of its nodes that declare it. -/
  declarations : ∀ e ∈ p.scopes.bindings,
    e.declaration = (e.references.filter p.root.declaresAt).head?
  /-- All other nodes that declare it are duplicates. -/
  duplicateVariables : (p.reported [.duplicateVariable]).Perm
    (p.scopes.bindings.flatMap (Entry.redeclarations p.root.declaresAt))
  /-- The functions whose first node is a call, with their names. -/
  unknownFunctions : ((p.reported [.undeclaredFunction, .noMatchingOverload]).map fun i =>
      (p.root.calledAt? i, i)).Perm
    (p.scopes.allFunctions.flatMap fun e =>
      (firstCall p.root e.2.references).map fun i => (some e.1, i))
  /-- Each name is at most once reported as not known at all. -/
  undeclaredFunctions : ((p.reported [.undeclaredFunction]).map p.root.calledAt?).Nodup
  duplicatePrototypes : (p.reported [.duplicatePrototype]).Perm
    (p.scopes.allFunctions.flatMap fun e => laterPrototypes p.root e.2.references)
  duplicateFunctions : (p.reported [.duplicateFunction]).Perm
    (p.scopes.allFunctions.flatMap fun e => laterDefinitions p.root e.2.references)

/-- A program is diagnosed by what a run over its occurrences reports. -/
theorem Names.MatchesTree.diagnosed {p : Program} {b : Names} (h : b.MatchesTree p.root)
    (hroot : p.root.Distinct) (hos : ∀ o ∈ os, o.MatchesTree p.root)
    (hbindings : b.scopes.bindings = []) (hfunctions : b.scopes.allFunctions = [])
    (hscopes : p.scopes = (os.foldl Names.step b).scopes)
    (hdiagnostics : p.diagnostics = b.reportsAll os) : p.Diagnosed := by
  have hvariables : ∀ {kinds : List DiagnosticKind} {f : Entry → List NodeId},
      (∀ (b : Names) (o : Occurrence), b.MatchesTree p.root → o.MatchesTree p.root →
        ((b.step o).scopes.bindings.flatMap f).Perm
          (nodesOf kinds (b.reports o) ++ b.scopes.bindings.flatMap f)) →
      (p.reported kinds).Perm (p.scopes.bindings.flatMap f) := by
    intro kinds f hstep
    have hrun := reportsAll (g := id) (F := fun t => t.bindings.flatMap f) hroot
      (fun b o hb ho => by simpa using hstep b o hb ho) h hos
    rw [hbindings, flatMap_nil, append_nil, List.map_id] at hrun
    rw [Program.reported, hdiagnostics, hscopes]
    exact hrun.symm
  have hgathered : ∀ {β : Type} {kinds : List DiagnosticKind} {f : String → List NodeId → List β}
      {g : NodeId → β}, Names.Gathers p.root kinds f g →
      ((p.reported kinds).map g).Perm
        (p.scopes.allFunctions.flatMap fun e => f e.1 e.2.references) := by
    intro β kinds f g hf
    have hrun := reportsAll (F := fun t =>
        t.allFunctions.flatMap fun e => f e.1 e.2.references) hroot
      (fun b o hb ho => hb.reports_functions ho hf) h hos
    rw [hfunctions, flatMap_nil, append_nil] at hrun
    rw [Program.reported, hdiagnostics, hscopes]
    exact hrun.symm
  refine
    { undeclaredVariables := hvariables fun b o hb ho => hb.reports_undeclaredVariable ho
      declarations := fun e he => ?_
      duplicateVariables := hvariables fun b o hb ho => hb.reports_duplicateVariable ho
      unknownFunctions := hgathered (gathers_firstCall hroot)
      undeclaredFunctions := ?_
      duplicatePrototypes := ?_
      duplicateFunctions := ?_ }
  · rw [hscopes] at he
    exact ((h.foldl hroot hos).bindings e he).declaration
  · rw [Program.reported, hdiagnostics]
    exact (h.nodup_undeclaredFunction hroot hos).1
  · have hprototypes := hgathered (gathers_laterPrototypes hroot)
    rwa [List.map_id] at hprototypes
  · have hdefinitions := hgathered (gathers_laterDefinitions hroot)
    rwa [List.map_id] at hdefinitions

/-- **Diagnostics match the registries** of every program that was read. -/
theorem Program.diagnosed_of_parse {text : String} {options : Options} {p : Program}
    (hp : Program.parse text options = .ok p) : p.Diagnosed := by
  obtain ⟨tree, b, htree, hbind, rfl⟩ := Program.parse_eq_ok hp
  have hbound := Program.boundAs_of_ofTree htree hbind
  have hread := Program.readNumbered_of_readTree htree
  obtain ⟨hnames, hreports, -⟩ := BindM.steps_leads hbind
  exact (Names.MatchesTree.initial _ (tree.number 0).1.span (tree.number 0).2).diagnosed
    hbound.distinct (fun o ho => hbound.matchesTree (Program.fromSource_of_readNumbered hread) ho)
    rfl rfl (congrArg Names.scopes hnames) hreports

/-- A program with a diagnostic of each kind. -/
theorem Program.diagnosed_of_parse_each :
    ∃ p,
      Program.parse ("int x=y;int x;int f(int);int a=g(1)+g(1,2)+f(1);int f(int);" ++
        "void m()\x7b\x7dvoid m()\x7b\x7d") Options.default = .ok p ∧
      p.diagnostics.map (fun d => (d.kind, d.node)) =
        [(.undeclaredVariable, 9), (.duplicateVariable, 16), (.undeclaredFunction, 36),
          (.noMatchingOverload, 40), (.duplicatePrototype, 50), (.duplicateFunction, 67)] ∧
      p.Diagnosed := by
  refine Program.exists_of_parse (fun p hparse h =>
    ⟨hparse, h, Program.diagnosed_of_parse hparse⟩) ?_
  decide +kernel

end ShaderSource
