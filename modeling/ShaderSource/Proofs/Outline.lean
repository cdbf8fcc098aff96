import ShaderSource.Proofs.Steps

/-!
# What binding does not depend on

Binding hands spans on, but decides nothing by them. Nor does it decide by the signatures of
functions what becomes of variables, types, scopes and callees: of functions only the names matter
for these. An outline is what is left of occurrences, scopes and diagnostics once the rest is
dropped. A step makes of an outline the outline of what it makes of the whole, so two runs over
occurrences of the same outline lead to scopes and diagnostics of the same outline.

There are two kinds of outlines, with signatures and without.

## Main results

* `Names.outline_step`: steps respect outlines.
* `Names.reports_outline`: so does what is reported.
* `Names.outline_run`: so do runs.
-/

namespace ShaderSource

open List Option ScopeTree

/-! ### Outlines -/

/-- A site without its range. -/
def Site.outline (site : Site) : Site :=
  ⟨site.id, none⟩

/-- A signature, or nothing instead if signatures do not matter. -/
def Signature.outline (signed : Bool) (signature : Signature) : Signature :=
  if signed then signature else default

/-- An occurrence without ranges. -/
def Occurrence.outline (signed : Bool) : Occurrence → Occurrence
  | .enter name _ => .enter name none
  | .leave => .leave
  | .declareVariable name site => .declareVariable name site.outline
  | .useVariable name site => .useVariable name site.outline
  | .declareType name site => .declareType name site.outline
  | .useType name site => .useType name site.outline
  | .declareFunction name signature site =>
    .declareFunction name (signature.outline signed) site.outline
  | .defineFunction name signature site =>
    .defineFunction name (signature.outline signed) site.outline
  | .call name callee arguments site => .call name callee.outline arguments site.outline
  | .malformed kind => .malformed kind

/-- What registers a function, without its signature unless signatures matter. -/
def Registration.outline (signed : Bool) : Registration → Registration
  | .declare signature => .declare (signature.outline signed)
  | .define signature => .define (signature.outline signed)
  | .call arguments => .call arguments

/-- What is done about a name, without signatures unless they matter. -/
def Act.outline (signed : Bool) : Act → Act
  | .register r name => .register (r.outline signed) name
  | act => act

/-- The functions of a name, or nothing instead if signatures do not matter. -/
def Overloads.outline (signed : Bool) (os : Overloads) : Overloads :=
  if signed then os else []

/-- A scope without its range. Unless signatures matter, only the names of functions are left. -/
def Scope.outline (signed : Bool) (s : Scope) : Scope :=
  { s with
    span := none
    functions := s.functions.map fun f => (f.1, f.2.outline signed) }

/-- Scopes without their ranges. -/
def ScopeTree.outline (signed : Bool) (t : ScopeTree) : ScopeTree :=
  ⟨t.scopes.map (Scope.outline signed)⟩

/-- What is known about names, the ranges of scopes left out. -/
def Names.outline (signed : Bool) (b : Names) : Names :=
  b.withScopes (b.scopes.outline signed)

/-- Whether a report is about a function. -/
def DiagnosticKind.isFunction : DiagnosticKind → Bool
  | .undeclaredFunction | .duplicateFunction | .duplicatePrototype | .noMatchingOverload => true
  | _ => false

/-- Reports without their ranges. Unless signatures matter, those about functions are left out. -/
def Diagnostic.outlines (signed : Bool) (ds : List Diagnostic) : List Diagnostic :=
  (ds.filter fun d => signed || !d.kind.isFunction).map fun d => { d with span := none }

/-! ### Registries and scopes -/

theorem Registry.map_insert {κ α β : Type} [DecidableEq κ] (f : α → β) (k : κ) (a : α)
    (r : Registry κ α) :
    (r.insert k a).map (fun e => (e.1, f e.2)) =
      Registry.insert k (f a) (r.map fun e => (e.1, f e.2)) := by
  induction r with
  | nil => rfl
  | cons e r ih =>
    simp only [Registry.insert, map_cons]
    split
    · rfl
    · rw [map_cons, ih]

theorem Registry.get?_map {κ α β : Type} [DecidableEq κ] (f : α → β) (k : κ)
    (r : Registry κ α) :
    Registry.get? k (r.map fun e => (e.1, f e.2)) = (r.get? k).map f := by
  induction r with
  | nil => rfl
  | cons e r ih =>
    simp only [Registry.get?, map_cons]
    split
    · rfl
    · exact ih

@[simp] theorem Overloads.outline_outline (signed : Bool) (os : Overloads) :
    (os.outline signed).outline signed = os.outline signed := by
  cases signed <;> rfl

namespace Scope

variable (signed : Bool)

@[simp] theorem outline_outline (s : Scope) :
    (s.outline signed).outline signed = s.outline signed := by
  simp [outline]

theorem entries_outline (s : Scope) (c : NameClass) :
    (s.outline signed).entries c = s.entries c := by
  cases c <;> rfl

theorem outline_setEntries (s : Scope) (c : NameClass) (r : Registry String Entry) :
    (s.setEntries c r).outline signed = (s.outline signed).setEntries c r := by
  cases c <;> rfl

end Scope

namespace ScopeTree

variable (signed : Bool) (t : ScopeTree)

@[simp] theorem outline_outline : (t.outline signed).outline signed = t.outline signed := by
  simp [outline]

theorem size_outline : (t.outline signed).size = t.size :=
  length_map _

theorem get?_outline (i : ScopeId) :
    (t.outline signed).get? i = (t.get? i).map (Scope.outline signed) :=
  getElem?_map

theorem root_outline : (t.outline signed).root = t.root.outline signed := by
  obtain ⟨_ | ⟨s, ss⟩⟩ := t
  · rfl
  · rfl

theorem nameOf_outline (i : ScopeId) : (t.outline signed).nameOf i = t.nameOf i := by
  rw [nameOf, nameOf, get?_outline, Option.map_map]
  rfl

theorem chain_outline (n : Nat) (i : ScopeId) :
    (t.outline signed).chain n i = (t.chain n i).map (Scope.outline signed) := by
  induction n generalizing i with
  | zero => rfl
  | succ n ih =>
    rw [chain, chain, get?_outline]
    cases t.get? i with
    | none => rfl
    | some s =>
      have hparent : (s.outline signed).parent = s.parent := rfl
      simp only [map_some, hparent]
      cases s.parent with
      | none => rfl
      | some p => simp [ih]

theorem lookup_outline (c : NameClass) (i : ScopeId) (name : String) :
    (t.outline signed).lookup c i name =
      (t.lookup c i name).map fun found => (found.1.outline signed, found.2) := by
  rw [lookup, lookup, ancestors, ancestors, chain_outline, size_outline, findSome?_map,
    map_findSome?]
  congr 1
  funext s
  simp only [Function.comp_apply, Scope.entries_outline, Option.map_map]
  rfl

theorem lookupFunction_outline (name : String) :
    (t.outline signed).lookupFunction name =
      (t.lookupFunction name).map (Overloads.outline signed) := by
  rw [lookupFunction, lookupFunction, root_outline]
  exact Registry.get?_map _ _ _

theorem outline_modify {f g : Scope → Scope}
    (h : ∀ s : Scope, (f s).outline signed = g (s.outline signed)) (i : ScopeId) :
    (t.modify i f).outline signed = (t.outline signed).modify i g := by
  rw [outline, outline, modify, modify, ScopeTree.mk.injEq]
  refine ext_getElem? fun j => ?_
  rw [getElem?_map, getElem?_modify, getElem?_modify, getElem?_map]
  cases t.scopes[j]? with
  | none => rfl
  | some s =>
    by_cases hij : i = j
    · simp [hij, h]
    · simp [hij]

theorem outline_modifyEntries (i : ScopeId) (c : NameClass)
    (f : Registry String Entry → Registry String Entry) :
    (t.modifyEntries i c f).outline signed = (t.outline signed).modifyEntries i c f :=
  outline_modify signed t (fun s => by
    rw [Scope.outline_setEntries, Scope.entries_outline]) i

theorem outline_push (parent : ScopeId) (name : String) (span : Option Span) :
    (t.push parent name span).1.outline signed = ((t.outline signed).push parent name none).1 := by
  simp only [push, outline, map_append, map_cons, map_nil, size, length_map]
  rfl

theorem outline_setOverloads (name : String) (os : Overloads) :
    (t.setOverloads name os).outline signed =
      (t.outline signed).setOverloads name (os.outline signed) := by
  refine outline_modify signed t (fun s => ?_) 0
  simp only [Scope.outline, Registry.map_insert]

/-! ### Variables and types -/

theorem declare_outline (c : NameClass) (i : ScopeId) (name : String) (node : NodeId) :
    (t.outline signed).declare c i name node =
      ((t.declare c i name node).1.outline signed, (t.declare c i name node).2) := by
  have hknown : ((t.outline signed).get? i).bind (fun s => (s.entries c).get? name) =
      (t.get? i).bind fun s => (s.entries c).get? name := by
    rw [get?_outline]
    cases t.get? i with
    | none => rfl
    | some s => rw [map_some, bind_some, bind_some, Scope.entries_outline]
  simp only [declare, hknown, nameOf_outline, outline_modifyEntries]

theorem use_outline (c : NameClass) (i : ScopeId) (name : String) (node : NodeId) :
    (t.outline signed).use c i name node =
      ((t.use c i name node).1.outline signed, (t.use c i name node).2) := by
  rw [use, use, lookup_outline]
  cases t.lookup c i name with
  | none | some found => exact Prod.ext (outline_modifyEntries signed t _ _ _).symm rfl

/-! ### Functions -/

/-- Functions with their signatures are registered alike, whatever the ranges of scopes are. -/
theorem overloads_outline (name : String) :
    (t.outline true).overloads name = t.overloads name := by
  rw [overloads, overloads, lookupFunction_outline]
  cases t.lookupFunction name <;> rfl

/-- With signatures, a registration does the same whatever the ranges of scopes are. -/
theorem register_outline (r : Registration) (name : String) (node : NodeId) :
    (t.outline true).register r name node = (t.register r name node).outline true ∧
      (t.outline true).problem? r name node = t.problem? r name node := by
  have hset : ∀ os, (t.outline true).setOverloads name os =
      (t.setOverloads name os).outline true := fun os => (outline_setOverloads true t name os).symm
  cases r with
  | declare s =>
    simp only [register, problem?, declareFunction, overloads_outline]
    cases (t.overloads name).adopt? s with
    | none | some found => exact ⟨hset _, rfl⟩
  | define s =>
    simp only [register, problem?, defineFunction, overloads_outline]
    cases (t.overloads name).adopt? s with
    | none => exact ⟨hset _, rfl⟩
    | some found =>
      dsimp only
      split
      · exact ⟨hset _, rfl⟩
      · exact ⟨hset _, rfl⟩
  | call n =>
    simp only [register, problem?, callFunction, overloads_outline, lookupFunction_outline,
      isSome_map]
    cases (t.overloads name).callee? (Signature.call n) with
    | none => exact ⟨hset _, rfl⟩
    | some found => exact ⟨hset _, rfl⟩

/-- A registration respects outlines. Without signatures it leaves no more than the name. -/
theorem outline_register (signed : Bool) (r : Registration) (name : String) (node : NodeId) :
    (t.register r name node).outline signed =
      ((t.outline signed).register (r.outline signed) name node).outline signed := by
  cases signed with
  | true =>
    have hsame : r.outline true = r := by cases r <;> rfl
    rw [hsame, (t.register_outline r name node).1, outline_outline]
  | false =>
    obtain ⟨os, hos⟩ := t.register_eq_setOverloads r name node
    obtain ⟨os', hos'⟩ := (t.outline false).register_eq_setOverloads (r.outline false) name node
    rw [hos, hos', outline_setOverloads, outline_setOverloads, outline_outline]
    rfl

end ScopeTree

/-! ### Steps -/

namespace Diagnostic

variable (signed : Bool)

theorem outlines_append (ds es : List Diagnostic) :
    outlines signed (ds ++ es) = outlines signed ds ++ outlines signed es := by
  rw [outlines, filter_append, map_append]
  rfl

/-- The range of a site does not matter. -/
theorem outlines_reports (site : Site) (problem : Option Problem) :
    outlines signed (site.outline.reports problem) = outlines signed (site.reports problem) := by
  cases problem with
  | none => rfl
  | some p =>
    simp only [outlines, Site.reports, map_some, toList_some, filter_cons,
      filter_nil, Problem.diagnostic]
    split <;> rfl

/-- Reports about functions are left out without signatures. -/
theorem outlines_of_isFunction (site : Site) {problem : Option Problem}
    (h : ∀ p ∈ problem, p.kind.isFunction = true) : outlines false (site.reports problem) = [] := by
  cases problem with
  | none => rfl
  | some p =>
    have hp : p.kind.isFunction = true := h p rfl
    simp [outlines, Site.reports, Problem.diagnostic, hp]

end Diagnostic

namespace Names

variable (signed : Bool) (b : Names)

@[simp] theorem outline_outline : (b.outline signed).outline signed = b.outline signed := by
  simp [outline, withScopes]

theorem outline_withScopes (t : ScopeTree) :
    (b.withScopes t).outline signed = (b.outline signed).withScopes (t.outline signed) :=
  rfl

theorem outline_exchangeCallee (site : NodeId) :
    (b.exchangeCallee site).outline signed = (b.outline signed).exchangeCallee site := by
  unfold exchangeCallee
  change _ = if b.callees.contains site = true then _ else _
  split <;> rfl

theorem lookup_isSome_outline (name : String) :
    ((b.outline signed).scopes.lookup .type (b.outline signed).current name).isSome =
      (b.scopes.lookup .type b.current name).isSome := by
  change ((b.scopes.outline signed).lookup .type b.current name).isSome = _
  rw [lookup_outline, isSome_map]

theorem lookupFunction_isSome_outline (name : String) :
    ((b.outline signed).scopes.lookupFunction name).isSome =
      (b.scopes.lookupFunction name).isSome := by
  change ((b.scopes.outline signed).lookupFunction name).isSome = _
  rw [lookupFunction_outline, isSome_map]

theorem effect_outline (o : Occurrence) :
    (b.outline signed).effect (o.outline signed) =
      ⟨(b.effect o).act.outline signed, (b.effect o).site.outline, (b.effect o).exchanges⟩ := by
  cases o with
  | declareVariable name site | useVariable name site =>
    simp only [effect, Occurrence.outline]
    split <;> rfl
  | call name callee arguments site =>
    simp only [effect, Occurrence.outline]
    rw [lookup_isSome_outline, lookupFunction_isSome_outline]
    split
    · rfl
    · split <;> rfl
  | _ => rfl

/-- What is done respects outlines. -/
theorem outline_perform (node : NodeId) (act : Act) :
    (b.perform node act).1.outline signed =
      ((b.outline signed).perform node (act.outline signed)).1.outline signed := by
  cases act with
  | nothing => exact (b.scopes.outline_outline signed).symm
  | declare c name =>
    change _ = ((b.scopes.outline signed).declare c b.current name node).1.outline signed
    rw [declare_outline, ScopeTree.outline_outline]
    rfl
  | use c name =>
    change _ = ((b.scopes.outline signed).use c b.current name node).1.outline signed
    rw [use_outline, ScopeTree.outline_outline]
    rfl
  | register r name => exact b.scopes.outline_register signed r name node

/-- **Steps respect outlines.** -/
theorem outline_step (o : Occurrence) :
    (b.step o).outline signed =
      ((b.outline signed).step (o.outline signed)).outline signed := by
  by_cases hflat : o.isFlat = true
  · have hscopes := outline_perform signed b (b.effect o).site.id (b.effect o).act
    rw [step_eq b hflat, step_eq _ (by cases o <;> exact hflat), effect_outline, after, after]
    change _ = Names.outline signed (if (b.effect o).exchanges then
      ((b.outline signed).withScopes _).exchangeCallee (b.effect o).site.id else _)
    split
    · rw [outline_exchangeCallee, outline_exchangeCallee, outline_withScopes,
        outline_withScopes, outline_outline, hscopes]
      rfl
    · rw [outline_withScopes, outline_withScopes, outline_outline, hscopes]
      rfl
  · cases o with
    | enter name span =>
      change Names.mk ((b.scopes.push b.current name span).1.outline signed) b.scopes.size b.lastId
        b.callees = Names.mk (((b.scopes.outline signed).push b.current name none).1.outline signed)
        (b.scopes.outline signed).size b.lastId b.callees
      rw [← outline_push, ScopeTree.outline_outline, size_outline]
    | leave =>
      change Names.mk (b.scopes.outline signed)
          (((b.scopes.get? b.current).bind Scope.parent).getD b.current) b.lastId b.callees =
        Names.mk ((b.scopes.outline signed).outline signed)
          ((((b.scopes.outline signed).get? b.current).bind Scope.parent).getD b.current) b.lastId
          b.callees
      rw [ScopeTree.outline_outline, get?_outline]
      cases b.scopes.get? b.current <;> rfl
    | _ => exact absurd rfl hflat

/-- What is reported respects outlines. -/
theorem reports_outline (o : Occurrence) :
    Diagnostic.outlines signed ((b.outline signed).reports (o.outline signed)) =
      Diagnostic.outlines signed (b.reports o) := by
  rw [reports_eq, reports_eq, effect_outline]
  generalize (b.effect o).site = site
  have hsite : ∀ {problem problem' : Option Problem}, problem = problem' →
      Diagnostic.outlines signed (site.outline.reports problem) =
        Diagnostic.outlines signed (site.reports problem') := by
    rintro problem _ rfl
    exact Diagnostic.outlines_reports signed site problem
  cases (b.effect o).act with
  | nothing => rfl
  | declare c name =>
    exact hsite (Prod.ext_iff.mp (declare_outline signed b.scopes _ _ _ _)).2
  | use c name =>
    exact hsite (Prod.ext_iff.mp (use_outline signed b.scopes _ _ _ _)).2
  | register r name =>
    cases signed with
    | true =>
      have hsame : r.outline true = r := by cases r <;> rfl
      refine hsite ?_
      change (b.scopes.outline true).problem? (r.outline true) name site.id = _
      rw [hsame]
      exact (b.scopes.register_outline r name site.id).2
    | false =>
      have hfunction : ∀ {t : ScopeTree} {r : Registration} {node : NodeId},
          ∀ p ∈ t.problem? r name node, p.kind.isFunction = true := by
        intro t r node p hp
        have hall : ∀ k ∈ r.faults, k.isFunction = true := by
          cases r <;> simp [Registration.faults, DiagnosticKind.isFunction]
        exact hall _ (kind_of_problem? hp)
      exact (Diagnostic.outlines_of_isFunction _ hfunction).trans
        (Diagnostic.outlines_of_isFunction _ hfunction).symm

variable {signed b}

/-- **Runs respect outlines**: what two runs over occurrences of the same outline lead to, and what
they report, has the same outline. -/
theorem outline_run {b' : Names} {os os' : List Occurrence}
    (hb : b.outline signed = b'.outline signed)
    (hos : os.map (Occurrence.outline signed) = os'.map (Occurrence.outline signed)) :
    (os.foldl Names.step b).outline signed = (os'.foldl Names.step b').outline signed ∧
      Diagnostic.outlines signed (b.reportsAll os) =
        Diagnostic.outlines signed (b'.reportsAll os') := by
  induction os generalizing b b' os' with
  | nil =>
    obtain rfl : os' = [] := map_eq_nil_iff.mp hos.symm
    exact ⟨hb, rfl⟩
  | cons o os ih =>
    cases os' with
    | nil => cases hos
    | cons o' os' =>
      rw [map_cons, map_cons, cons.injEq] at hos
      have hstep : (b.step o).outline signed = (b'.step o').outline signed := by
        rw [outline_step signed b o, hb, hos.1, ← outline_step]
      have hreports : Diagnostic.outlines signed (b.reports o) =
          Diagnostic.outlines signed (b'.reports o') := by
        rw [← reports_outline signed b o, hb, hos.1, reports_outline]
      obtain ⟨hnames, hrest⟩ := ih hstep hos.2
      refine ⟨hnames, ?_⟩
      rw [reportsAll, reportsAll, Diagnostic.outlines_append, Diagnostic.outlines_append,
        hreports, hrest]

end Names

end ShaderSource
