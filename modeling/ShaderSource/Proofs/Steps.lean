import ShaderSource.Proofs.Registration

/-!
# What a step does to the scopes

Functions are registered by prototypes, by definitions and by calls. All three do one of three
things to the functions of the name: they add to a function that is known, they take over a
function that was only called so far, or they add a new function. Taking a function over gives it
another signature, and so another key.

A step that neither opens nor leaves a scope leaves the scopes as they are, declares or uses a name
in the scope that is open, or registers a function. What steps keep and report follows from these
four.

## Main results

* `ScopeTree.register_eq`: what a registration does to the functions of its name.
* `Names.scopes_step`, `Names.reports_eq`: what a step does to the scopes, and what it reports.
* `Names.kind_of_reports`: what may be reported about an occurrence.
* `Names.functions_step`: what it does to the functions.
-/

namespace ShaderSource

open List Registry

/-! ### Registrations -/

/-- What registers a function. -/
inductive Registration where
  | declare (signature : Signature)
  | define (signature : Signature)
  | call (arguments : Nat)

namespace Registration

/-- The signature that is looked for. -/
def signature : Registration → Signature
  | .declare s => s
  | .define s => s
  | .call n => Signature.call n

/-- Whether the function is called only. -/
def isCall : Registration → Bool
  | .call _ => true
  | _ => false

/-- A function that was not known, after it is registered at a node. -/
def new (r : Registration) (node : NodeId) : Overload :=
  match r with
  | .declare s => ⟨s, some node, false, [node]⟩
  | .define s => ⟨s, some node, true, [node]⟩
  | .call n => ⟨Signature.call n, none, false, [node]⟩

/-- A known function after it is registered once more. -/
def extend (r : Registration) (node : NodeId) (o : Overload) : Overload :=
  match r with
  | .declare _ => o.declare node
  | .define _ => if o.defined then o.refer node else o.define node
  | .call _ => o.refer node

/-- What may be wrong with it. -/
def faults : Registration → List DiagnosticKind
  | .declare _ => [.duplicatePrototype]
  | .define _ => [.duplicateFunction]
  | .call _ => [.undeclaredFunction, .noMatchingOverload]

variable (r : Registration) (node : NodeId)

@[simp] theorem signature_new : (r.new node).signature = r.signature := by
  cases r <;> rfl

/-- A new function is one without nodes that is registered once more. -/
theorem new_eq : r.new node = r.extend node ⟨r.signature, none, false, []⟩ := by
  cases r <;> rfl

@[simp] theorem references_new : (r.new node).references = [node] := by
  cases r <;> rfl

@[simp] theorem signature_extend (o : Overload) :
    (r.extend node o).signature = o.signature := by
  cases r with
  | define s =>
    unfold extend
    dsimp only
    split <;> rfl
  | _ => rfl

@[simp] theorem references_extend (o : Overload) :
    (r.extend node o).references = o.references ++ [node] := by
  cases r with
  | define s =>
    unfold extend
    dsimp only
    split <;> rfl
  | _ => rfl

end Registration

/-- What a registration does to the functions of its name. -/
inductive Overloads.Registered (r : Registration) (node : NodeId) (os : Overloads) :
    Overloads → Prop
  /-- A known function is called. -/
  | called {key o} :
      r.isCall = true → get? key os = some o → o.signature.agrees r.signature = true →
      Registered r node os (insert key (r.extend node o) os)
  /-- A function with the same key is declared once more. -/
  | redeclared {o} :
      r.isCall = false → get? r.signature.key os = some o →
      Registered r node os (insert r.signature.key (r.extend node o) os)
  /-- A function that was only called is declared. -/
  | takenOver {key o} :
      r.isCall = false → get? r.signature.key os = none →
      get? key os = some o → o.declaration = none →
      o.signature.agrees r.signature = true →
      Registered r node os
        (insert r.signature.key (r.extend node { o with signature := r.signature })
          (erase key os))
  /-- The function was not known. -/
  | added :
      get? r.signature.key os = none →
      (∀ e ∈ os, r.isCall = true ∨ e.2.declaration = none →
        e.2.signature.agrees r.signature = false) →
      Registered r node os (insert r.signature.key (r.new node) os)

/-- The functions of one name are under the texts of their signatures. -/
structure Overloads.Keyed (os : Overloads) : Prop where
  unique : Unique os
  keys : ∀ e ∈ os, e.2.signature.key = e.1

namespace Overloads

variable {os : Overloads} {r : Registration}

theorem keyed_nil : Keyed [] :=
  ⟨unique_nil, by simp⟩

theorem Keyed.insert (h : os.Keyed) {key : String} {o : Overload} (hkey : o.signature.key = key) :
    Keyed (insert key o os) := by
  refine ⟨h.unique.insert key o, fun e he => ?_⟩
  rcases mem_insert he with rfl | he
  · exact hkey
  · exact h.keys e he

theorem Keyed.erase (h : os.Keyed) (key : String) : Keyed (erase key os) :=
  ⟨h.unique.erase key, fun e he => h.keys e (mem_erase he)⟩

theorem Keyed.key_eq (h : os.Keyed) {key : String} {o : Overload}
    (hget : get? key os = some o) : o.signature.key = key :=
  h.keys _ (mem_of_get? hget)

theorem Keyed.get?_of_mem (h : os.Keyed) {key : String} {o : Overload} (hmem : (key, o) ∈ os) :
    get? key os = some o :=
  Registry.get?_of_mem h.unique hmem

theorem awaiting?_eq_none {signature : Signature} (h : os.awaiting? signature = none) :
    ∀ e ∈ os, e.2.declaration = none → e.2.signature.agrees signature = false := by
  rintro ⟨key, o⟩ he hnone
  have hfind := find?_eq_none.mp h _ he
  dsimp only at hnone hfind
  rw [hnone] at hfind
  simpa using hfind

/-- The functions after a declaration or definition, which looks for them as `adopt?` does. -/
theorem Keyed.registered_adopt (h : os.Keyed) (node : NodeId) (hr : r.isCall = false) :
    (∃ os' o, os.adopt? r.signature = some (os', o) ∧
        Registered r node os (Registry.insert o.signature.key (r.extend node o) os')) ∨
      os.adopt? r.signature = none ∧
        Registered r node os (Registry.insert r.signature.key (r.new node) os) := by
  cases hget : get? r.signature.key os with
  | some o =>
    refine .inl ⟨os, o, by rw [Overloads.adopt?, hget], ?_⟩
    rw [h.key_eq hget]
    exact .redeclared hr hget
  | none =>
    cases hawaiting : os.awaiting? r.signature with
    | none =>
      refine .inr ⟨by rw [Overloads.adopt?, hget, hawaiting]; rfl, .added hget ?_⟩
      rintro e he (hcall | hnone)
      · rw [hr] at hcall
        cases hcall
      · exact awaiting?_eq_none hawaiting e he hnone
    | some e =>
      obtain ⟨key, o⟩ := e
      have hfound := find?_some hawaiting
      simp only [Bool.and_eq_true, Option.isNone_iff_eq_none] at hfound
      have hkey := h.get?_of_mem (mem_of_find?_eq_some hawaiting)
      refine .inl ⟨_, _, by rw [Overloads.adopt?, hget, hawaiting]; rfl, ?_⟩
      have htaken : Registered r node os _ :=
        .takenOver hr hget hkey hfound.1 hfound.2
      -- The function is put in twice, first as it is taken over.
      have htwice : Registry.insert r.signature.key
            (r.extend node { o with signature := r.signature })
            (Registry.insert r.signature.key { o with signature := r.signature }
              (Registry.erase key os)) =
          Registry.insert r.signature.key
            (r.extend node { o with signature := r.signature }) (Registry.erase key os) :=
        insert_insert _ _ _ _
      rw [htwice]
      exact htaken

/-- The functions after a call, which looks for them as `callee?` does. -/
theorem Keyed.registered_call (h : os.Keyed) (node : NodeId) (arguments : Nat) :
    (∃ key o, os.callee? (Signature.call arguments) = some (key, o) ∧
        Registered (.call arguments) node os (Registry.insert key (o.refer node) os)) ∨
      os.callee? (Signature.call arguments) = none ∧
        Registered (.call arguments) node os
          (Registry.insert (Signature.call arguments).key
            ((Registration.call arguments).new node) os) := by
  cases hcallee : os.callee? (Signature.call arguments) with
  | some e =>
    obtain ⟨key, o⟩ := e
    refine .inl ⟨key, o, rfl, ?_⟩
    have hagrees : o.signature.agrees (Signature.call arguments) = true := by
      simpa using find?_some hcallee
    exact .called rfl (h.get?_of_mem (mem_of_find?_eq_some hcallee)) hagrees
  | none =>
    have hall : ∀ e ∈ os, e.2.signature.agrees (Signature.call arguments) = false := by
      rintro ⟨key, o⟩ he
      simpa using find?_eq_none.mp hcallee _ he
    refine .inr ⟨rfl, .added ?_ fun e he _ => hall e he⟩
    cases hget : get? (Signature.call arguments).key os with
    | none => exact hget
    | some o =>
      have hdiffers := hall _ (mem_of_get? hget)
      rw [Signature.agrees, h.key_eq hget, beq_self_eq_true, Bool.true_or] at hdiffers
      cases hdiffers

end Overloads

namespace ScopeTree

variable {t : ScopeTree}

/-- The scopes after a registration. -/
def register (t : ScopeTree) (r : Registration) (name : String) (node : NodeId) : ScopeTree :=
  match r with
  | .declare s => (t.declareFunction name s node).1
  | .define s => (t.defineFunction name s node).1
  | .call n => (t.callFunction name n node).1

/-- What is wrong with a registration. -/
def problem? (t : ScopeTree) (r : Registration) (name : String) (node : NodeId) : Option Problem :=
  match r with
  | .declare s => (t.declareFunction name s node).2
  | .define s => (t.defineFunction name s node).2
  | .call n => (t.callFunction name n node).2.problem?

/-- What is wrong with a registration is about functions. -/
theorem kind_of_problem? {r : Registration} {name : String} {node : NodeId} {q : Problem}
    (h : q ∈ t.problem? r name node) : q.kind ∈ r.faults := by
  cases r with
  | declare s =>
    simp only [problem?, declareFunction] at h
    split at h
    · split at h <;> cases h
      exact mem_singleton_self _
    · cases h
  | define s =>
    simp only [problem?, defineFunction] at h
    split at h
    · split at h <;> cases h
      exact mem_singleton_self _
    · cases h
  | call n =>
    simp only [problem?, callFunction] at h
    split at h
    · cases h
    · cases h
      split
      · exact mem_cons_of_mem _ (mem_singleton_self _)
      · exact mem_cons_self

/-- A registration changes the functions of a name, and nothing else. -/
theorem register_eq_setOverloads (t : ScopeTree) (r : Registration) (name : String)
    (node : NodeId) : ∃ os, t.register r name node = t.setOverloads name os := by
  cases r with
  | declare s =>
    simp only [register, declareFunction]
    split <;> exact ⟨_, rfl⟩
  | define s =>
    simp only [register, defineFunction]
    split
    · split <;> exact ⟨_, rfl⟩
    · exact ⟨_, rfl⟩
  | call n =>
    simp only [register, callFunction]
    split <;> exact ⟨_, rfl⟩

/-- What a registration does to the functions of its name. -/
theorem register_eq (r : Registration) {name : String} (h : (t.overloads name).Keyed)
    (node : NodeId) :
    ∃ os, (t.overloads name).Registered r node os ∧
      t.register r name node = t.setOverloads name os := by
  cases r with
  | declare s =>
    rcases h.registered_adopt (r := .declare s) node rfl with
      ⟨os, o, hadopt, hos⟩ | ⟨hadopt, hos⟩
    all_goals
      rw [Registration.signature] at hadopt
      refine ⟨_, hos, ?_⟩
      rw [register, declareFunction, hadopt]
      rfl
  | define s =>
    rcases h.registered_adopt (r := .define s) node rfl with
      ⟨os, o, hadopt, hos⟩ | ⟨hadopt, hos⟩
    all_goals
      rw [Registration.signature] at hadopt
      refine ⟨_, hos, ?_⟩
      rw [register, defineFunction, hadopt]
    · cases hdefined : o.defined <;> simp [Registration.extend, hdefined] <;> rfl
    · rfl
  | call n =>
    rcases h.registered_call node n with ⟨key, o, hcallee, hos⟩ | ⟨hcallee, hos⟩
    · exact ⟨_, hos, by simp only [register, callFunction, hcallee]⟩
    · exact ⟨_, hos, by simp only [register, callFunction, hcallee]; rfl⟩

end ScopeTree

/-! ### Steps -/

/-- The occurrence leaves the scopes open that are open. -/
def Occurrence.isFlat : Occurrence → Bool
  | .enter _ _ => false
  | .leave => false
  | _ => true

/-- What is done in the scopes about a name. -/
inductive Act where
  | nothing
  | declare (c : NameClass) (name : String)
  | use (c : NameClass) (name : String)
  | register (r : Registration) (name : String)

/-- The function that is registered, with its name. -/
def Act.registration? : Act → Option (Registration × String)
  | .register r name => some (r, name)
  | _ => none

/-- What may be wrong with it. -/
def Act.faults : Act → List DiagnosticKind
  | .nothing => []
  | .declare c name => [(ScopeTree.duplicate c name "").kind]
  | .use c name => [(ScopeTree.undeclared c name).kind]
  | .register r _ => r.faults

/-- What an occurrence comes to once it is known what its name means: what is done about the name,
at which node, and whether it is a call that gets a new callee. -/
structure Effect where
  act : Act
  site : Site
  exchanges : Bool

namespace Names

variable {b : Names} {o : Occurrence}

/-- What an occurrence registers as a function, with its name and node. -/
def registration? (b : Names) : Occurrence → Option (Registration × String × NodeId)
  | .declareFunction name signature site => some (.declare signature, name, site.id)
  | .defineFunction name signature site => some (.define signature, name, site.id)
  | .call name _ arguments site =>
    if (b.scopes.lookup .type b.current name).isSome then none
    else if (b.scopes.lookupFunction name).isSome || !Vocabulary.isBuiltinFunction name then
      some (.call arguments, name, site.id)
    else none
  | _ => none

/-- The scopes after something is done at a node, and what is wrong with it. -/
def perform (b : Names) (node : NodeId) : Act → ScopeTree × Option Problem
  | .nothing => (b.scopes, none)
  | .declare c name => b.scopes.declare c b.current name node
  | .use c name => b.scopes.use c b.current name node
  | .register r name => (b.scopes.register r name node, b.scopes.problem? r name node)

/-- What an occurrence comes to. -/
def effect (b : Names) : Occurrence → Effect
  | .declareVariable name site =>
    ⟨if Vocabulary.isBuiltinVariable name then .nothing else .declare .var name, site, false⟩
  | .useVariable name site =>
    ⟨if Vocabulary.isBuiltinVariable name then .nothing else .use .var name, site, false⟩
  | .declareType name site => ⟨.declare .type name, site, false⟩
  | .useType name site => ⟨.use .type name, site, false⟩
  | .declareFunction name signature site => ⟨.register (.declare signature) name, site, false⟩
  | .defineFunction name signature site => ⟨.register (.define signature) name, site, false⟩
  | .call name callee arguments site =>
    if (b.scopes.lookup .type b.current name).isSome then
      ⟨.use .type name, ⟨(b.callees.get? site.id).getD callee.id, callee.span⟩, false⟩
    else if (b.scopes.lookupFunction name).isSome || !Vocabulary.isBuiltinFunction name then
      ⟨.register (.call arguments) name, site, true⟩
    else ⟨.nothing, site, true⟩
  | _ => ⟨.nothing, default, false⟩

/-- What is known after an effect. -/
def after (b : Names) (e : Effect) : Names :=
  if e.exchanges then (b.withScopes (b.perform e.site.id e.act).1).exchangeCallee e.site.id
  else b.withScopes (b.perform e.site.id e.act).1

theorem step_eq (b : Names) (h : o.isFlat = true) : b.step o = b.after (b.effect o) := by
  cases o with
  | enter | leave => cases h
  | malformed | declareType | useType | declareFunction | defineFunction => rfl
  | declareVariable name site | useVariable name site =>
    simp only [step, effect]
    split <;> rfl
  | call name callee arguments site =>
    simp only [step, call, effect]
    split
    · rfl
    · split <;> rfl

/-- What a step does to the scopes. -/
theorem scopes_step (b : Names) (h : o.isFlat = true) :
    (b.step o).current = b.current ∧
      (b.step o).scopes = (b.perform (b.effect o).site.id (b.effect o).act).1 := by
  rw [step_eq b h, after]
  split
  · exact ⟨current_exchangeCallee _ _, scopes_exchangeCallee _⟩
  · exact ⟨rfl, rfl⟩

/-- What is reported is what is wrong with the effect. The use of a type that is called is never
wrong. -/
theorem reports_eq (b : Names) (o : Occurrence) :
    b.reports o =
      (b.effect o).site.reports (b.perform (b.effect o).site.id (b.effect o).act).2 := by
  cases o with
  | enter | leave | malformed | declareType | useType | declareFunction | defineFunction => rfl
  | declareVariable name site | useVariable name site =>
    simp only [reports, effect]
    split <;> rfl
  | call name callee arguments site =>
    simp only [reports, effect]
    split
    · rename_i htype
      obtain ⟨found, hlookup⟩ := Option.isSome_iff_exists.mp htype
      simp [perform, ScopeTree.use, hlookup, Site.reports]
    · split <;> rfl

/-- What may be reported about an occurrence. -/
theorem kind_of_reports {d : Diagnostic} (h : d ∈ b.reports o) :
    d.kind ∈ (b.effect o).act.faults := by
  rw [reports_eq, Site.reports, Option.mem_toList, Option.map_eq_some_iff] at h
  obtain ⟨q, hq, rfl⟩ := h
  change q.kind ∈ _
  generalize (b.effect o).act = act at hq ⊢
  cases act with
  | nothing => cases hq
  | declare c name =>
    simp only [perform, ScopeTree.declare] at hq
    split at hq
    · obtain rfl := Option.some.inj hq
      cases c <;> exact mem_singleton_self _
    · cases hq
  | use c name =>
    simp only [perform, ScopeTree.use] at hq
    split at hq
    · cases hq
    · obtain rfl := Option.some.inj hq
      exact mem_singleton_self _
  | register r name => exact ScopeTree.kind_of_problem? hq

theorem registration?_eq (b : Names) (o : Occurrence) :
    b.registration? o =
      (b.effect o).act.registration?.map fun r => (r.1, r.2, (b.effect o).site.id) := by
  cases o with
  | enter | leave | malformed | declareType | useType | declareFunction | defineFunction => rfl
  | declareVariable name site | useVariable name site =>
    simp only [registration?, effect]
    split <;> rfl
  | call name callee arguments site =>
    simp only [registration?, effect]
    split
    · rfl
    · split <;> rfl

end Names

namespace ScopeTree

theorem functions_modify {f : Scope → Scope} (hf : ∀ s, (f s).functions = s.functions)
    (t : ScopeTree) (j : ScopeId) : (t.modify j f).root.functions = t.root.functions := by
  obtain ⟨scopes⟩ := t
  cases scopes with
  | nil => cases j <;> rfl
  | cons s rest => cases j <;> simp [root, modify, hf]

theorem functions_modifyEntries (t : ScopeTree) (j : ScopeId) (c : NameClass)
    (f : Registry String Entry → Registry String Entry) :
    (t.modifyEntries j c f).root.functions = t.root.functions :=
  functions_modify (fun s => by cases c <;> rfl) t j

theorem functions_use (t : ScopeTree) (c : NameClass) (i : ScopeId) (name : String)
    (node : NodeId) : (t.use c i name node).1.root.functions = t.root.functions := by
  unfold ScopeTree.use
  split <;> exact functions_modifyEntries _ _ _ _

theorem functions_push (t : ScopeTree) (parent : ScopeId) (name : String) (span : Option Span) :
    (t.push parent name span).1.root.functions = t.root.functions := by
  obtain ⟨scopes⟩ := t
  cases scopes <;> rfl

end ScopeTree

/-- A step changes functions by a registration, or not at all. -/
theorem Names.functions_step (b : Names) (o : Occurrence) :
    (∀ r name node, b.registration? o = some (r, name, node) →
      (b.step o).scopes.root.functions = (b.scopes.register r name node).root.functions) ∧
    (b.registration? o = none → (b.step o).scopes.root.functions = b.scopes.root.functions) := by
  by_cases hflat : o.isFlat = true
  · rw [registration?_eq, (b.scopes_step hflat).2]
    cases (b.effect o).act with
    | nothing => exact ⟨fun _ _ _ h => (by cases h), fun _ => rfl⟩
    | declare =>
      exact ⟨fun _ _ _ h => (by cases h), fun _ => ScopeTree.functions_modifyEntries _ _ _ _⟩
    | use => exact ⟨fun _ _ _ h => (by cases h), fun _ => ScopeTree.functions_use _ _ _ _ _⟩
    | register =>
      refine ⟨fun r name node h => ?_, fun h => (by cases h)⟩
      cases h
      rfl
  · cases o with
    | enter name span =>
      exact ⟨fun _ _ _ h => (by cases h), fun _ => b.scopes.functions_push b.current name span⟩
    | leave => exact ⟨fun _ _ _ h => (by cases h), fun _ => rfl⟩
    | _ => exact absurd rfl hflat

end ShaderSource
