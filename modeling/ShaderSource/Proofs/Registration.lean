import ShaderSource.Program
import ShaderSource.Proofs.Registry
import ShaderSource.Proofs.Rewrite
import ShaderSource.Rename

/-!
# What binding registers

Binding goes through occurrences step by step, and at the same time deals with diagnostics and the
log. What it does to the scopes and to the callees depends on neither, and not on the policy: a
binding that succeeds is a fold of one step, `Names.step`, over the occurrences. What it reports
depends on nothing else either.

Scopes list references to names. An occurrence can register one reference, its own. New callees get
identities that no node has had, each its own.

## Main results

* `BindM.steps_leads`: a binding that succeeds is a fold, and what it reports.
* `Names.step_callees`: a step gives a new callee to at most one call.
-/

namespace ShaderSource

open List Vocabulary

variable {b : Binding} {n : Names} {ds : List Diagnostic} {policy : Policy} {os : List Occurrence}
  {s : Scope} {i : NodeId}

/-! ### Binding as a fold -/

/-- What binding knows about names. -/
structure Names where
  scopes : ScopeTree
  /-- The innermost open scope. -/
  current : ScopeId
  /-- The last identity that was given to a node. -/
  lastId : NodeId
  /-- The calls whose callees are functions, with the identities of their new callees. -/
  callees : Registry NodeId NodeId

/-- What a binding knows about names. -/
def Binding.names (b : Binding) : Names :=
  ⟨b.scopes, b.current, b.lastId, b.callees⟩

/-- The problem with a call, if there is one. -/
def ScopeTree.CallOutcome.problem? : CallOutcome → Option Problem
  | .resolved _ => none
  | .problem p => some p

/-- What is reported about a problem at a site, if there is one. -/
def Site.reports (site : Site) (problem : Option Problem) : List Diagnostic :=
  (problem.map fun p => p.diagnostic site).toList

namespace Names

/-- What is known once the scopes have changed. -/
def withScopes (b : Names) (scopes : ScopeTree) : Names :=
  { b with scopes }

/-- What is known once the callee of a call is to be exchanged. -/
def exchangeCallee (b : Names) (site : NodeId) : Names :=
  if b.callees.contains site then b
  else { b with lastId := b.lastId + 1, callees := b.callees.insert site (b.lastId + 1) }

/-- What a call makes known. -/
def call (b : Names) (name : String) (callee : NodeId) (arguments : Nat) (site : NodeId) : Names :=
  if (b.scopes.lookup .type b.current name).isSome then
    b.withScopes (b.scopes.use .type b.current name ((b.callees.get? site).getD callee)).1
  else if (b.scopes.lookupFunction name).isSome || !Vocabulary.isBuiltinFunction name then
    (b.withScopes (b.scopes.callFunction name arguments site).1).exchangeCallee site
  else b.exchangeCallee site

/-- What an occurrence makes known. -/
def step (b : Names) : Occurrence → Names
  | .enter name span =>
    { b with
      scopes := (b.scopes.push b.current name span).1
      current := (b.scopes.push b.current name span).2 }
  | .leave => { b with current := ((b.scopes.get? b.current).bind Scope.parent).getD b.current }
  | .declareVariable name site =>
    if isBuiltinVariable name then b
    else b.withScopes (b.scopes.declare .var b.current name site.id).1
  | .useVariable name site =>
    if isBuiltinVariable name then b
    else b.withScopes (b.scopes.use .var b.current name site.id).1
  | .declareType name site => b.withScopes (b.scopes.declare .type b.current name site.id).1
  | .useType name site => b.withScopes (b.scopes.use .type b.current name site.id).1
  | .declareFunction name signature site =>
    b.withScopes (b.scopes.declareFunction name signature site.id).1
  | .defineFunction name signature site =>
    b.withScopes (b.scopes.defineFunction name signature site.id).1
  | .call name callee arguments site => b.call name callee.id arguments site.id
  | .malformed _ => b

/-- What is reported about an occurrence. A type that is called is known, so nothing is wrong with
its call. -/
def reports (b : Names) : Occurrence → List Diagnostic
  | .declareVariable name site =>
    if isBuiltinVariable name then []
    else site.reports (b.scopes.declare .var b.current name site.id).2
  | .useVariable name site =>
    if isBuiltinVariable name then []
    else site.reports (b.scopes.use .var b.current name site.id).2
  | .declareType name site => site.reports (b.scopes.declare .type b.current name site.id).2
  | .useType name site => site.reports (b.scopes.use .type b.current name site.id).2
  | .declareFunction name signature site =>
    site.reports (b.scopes.declareFunction name signature site.id).2
  | .defineFunction name signature site =>
    site.reports (b.scopes.defineFunction name signature site.id).2
  | .call name _ arguments site =>
    if (b.scopes.lookup .type b.current name).isSome then []
    else if (b.scopes.lookupFunction name).isSome || !Vocabulary.isBuiltinFunction name then
      site.reports (b.scopes.callFunction name arguments site.id).2.problem?
    else []
  | _ => []

/-- What is reported in a run. -/
def reportsAll : Names → List Occurrence → List Diagnostic
  | _, [] => []
  | b, o :: os => b.reports o ++ reportsAll (b.step o) os

/-- The occurrence can be registered: a scope that is left has one around it, and a node that should
declare a name does. -/
def Allows (b : Names) : Occurrence → Prop
  | .leave => ∃ scope parent, b.scopes.get? b.current = some scope ∧ scope.parent = some parent
  | .malformed _ => False
  | _ => True

/-- The occurrences can be registered one after the other. -/
def AllowsAll : Names → List Occurrence → Prop
  | _, [] => True
  | b, o :: os => b.Allows o ∧ AllowsAll (b.step o) os

end Names

namespace BindM

variable {α β : Type}

/-- From `b`, the computation leads to the names `n` and reports `ds`. Where diagnostics are errors,
it ends with the first of them instead. -/
def Leads (policy : Policy) (m : BindM α) (b : Binding) (n : Names) (ds : List Diagnostic) :
    Prop :=
  (∃ a b', m.run.run b = (.ok a, b') ∧ b'.names = n ∧ b'.diagnostics = b.diagnostics ++ ds ∧
    (policy.strict = true → ds = [])) ∨
    ∃ d ds' b', policy.strict = true ∧ ds = d :: ds' ∧ m.run.run b = (.error (.diagnostic d), b')

theorem leads_pure (a : α) (b : Binding) : Leads policy (pure a) b b.names [] :=
  .inl ⟨a, b, rfl, rfl, (append_nil _).symm, fun _ => rfl⟩

theorem leads_modify {f : Binding → Binding} (hf : ∀ b, (f b).diagnostics = b.diagnostics)
    (b : Binding) : Leads policy (modify f) b (f b).names [] :=
  .inl ⟨⟨⟩, f b, rfl, rfl, (hf b).trans (append_nil _).symm, fun _ => rfl⟩

theorem Leads.bind {m : BindM α} {k : α → BindM β} {n' : Names} {ds' : List Diagnostic}
    (hm : Leads policy m b n ds) (hk : ∀ a b', b'.names = n → Leads policy (k a) b' n' ds') :
    Leads policy (m >>= k) b n' (ds ++ ds') := by
  rcases hm with ⟨a, b', hrun, hnames, hreported, hnone⟩ | ⟨d, rest, b', hstrict, rfl, hrun⟩
  · have hbind : (m >>= k).run.run b = (k a).run.run b' := by
      rw [VisitM.run_bind, hrun]
    rw [Leads, hbind]
    rcases hk a b' hnames with
      ⟨c, b'', hrun', hnames', hreported', hnone'⟩ | ⟨d, rest, b'', hstrict, rfl, hrun'⟩
    · refine .inl ⟨c, b'', hrun', hnames', by rw [hreported', hreported, append_assoc], ?_⟩
      exact fun hstrict => by rw [hnone hstrict, hnone' hstrict]; rfl
    · exact .inr ⟨d, rest, b'', hstrict, by rw [hnone hstrict]; rfl, hrun'⟩
  · exact .inr ⟨d, rest ++ ds', b', hstrict, rfl, by rw [VisitM.run_bind, hrun]⟩

/-- A computation that reports nothing after another one. -/
theorem Leads.bind_silent {m : BindM α} {k : α → BindM β} {n' : Names}
    (hm : Leads policy m b n ds) (hk : ∀ a b', b'.names = n → Leads policy (k a) b' n' []) :
    Leads policy (m >>= k) b n' ds := by
  have hall := hm.bind hk
  rwa [append_nil] at hall

theorem leads_get {k : Binding → BindM α} (h : Leads policy (k b) b n ds) :
    Leads policy (get >>= k) b n ds :=
  h

theorem run_get (b : Binding) : (get : BindM Binding).run.run b = (.ok b, b) :=
  rfl

theorem Leads.of_ok {m : BindM α} {a : α} {b' : Binding} (h : Leads policy m b n ds)
    (hrun : m.run.run b = (.ok a, b')) : b'.names = n ∧ b'.diagnostics = b.diagnostics ++ ds := by
  rcases h with ⟨a', b'', hrun', hnames, hreported, -⟩ | ⟨d, rest, b'', -, -, hrun'⟩
  · cases hrun.symm.trans hrun'
    exact ⟨hnames, hreported⟩
  · cases hrun.symm.trans hrun'

theorem leads_tell (entry : LogEntry) (b : Binding) : Leads policy (tell entry) b b.names [] :=
  leads_modify (fun _ => by rfl) b

theorem leads_report (site : Site) (problem : Problem) (b : Binding) :
    Leads policy (report policy site problem) b b.names [problem.diagnostic site] := by
  obtain ⟨strict, quiet⟩ := policy
  cases strict with
  | true => exact .inr ⟨_, [], b, rfl, rfl, rfl⟩
  | false => cases quiet <;> exact .inl ⟨⟨⟩, _, rfl, rfl, rfl, Bool.noConfusion⟩

theorem leads_register (site : Site) (result : ScopeTree × Option Problem) (hb : b.names = n) :
    Leads policy (register policy site result) b (n.withScopes result.1)
      (site.reports result.2) := by
  subst hb
  refine (leads_modify (fun _ => by rfl) b).bind fun _ b' hb' => ?_
  rw [show b.names.withScopes result.1 = b'.names from hb'.symm]
  cases result.2 with
  | some problem => exact leads_report site problem b'
  | none => exact leads_pure () b'

theorem leads_enter (name : String) (span : Option Span) (b : Binding) :
    Leads policy (enter name span) b (b.names.step (.enter name span)) [] :=
  (leads_tell _ b).bind fun _ b' hb' => by
    rw [← hb']
    exact leads_modify (fun _ => by rfl) b'

theorem leads_leave (h : b.names.Allows .leave) :
    Leads policy leave b (b.names.step .leave) [] := by
  obtain ⟨scope, parent, hget, hparent⟩ := h
  have hstep : b.names.step .leave = { b.names with current := parent } := by
    simp [Names.step, hget, hparent]
  refine leads_get ?_
  rw [show b.scopes.get? b.current = _ from hget]
  refine (leads_tell _ b).bind fun _ b' hb' => ?_
  rw [hstep, ← hb']
  simp only [hparent]
  exact leads_modify (fun _ => by rfl) b'

theorem leads_declareVariable (name : String) (site : Site) (b : Binding) :
    Leads policy (declareVariable policy name site) b (b.names.step (.declareVariable name site))
      (b.names.reports (.declareVariable name site)) := by
  rw [declareVariable, Names.step, Names.reports]
  by_cases hbuiltin : isBuiltinVariable name = true
  · rw [if_pos hbuiltin, if_pos hbuiltin, if_pos hbuiltin]
    exact leads_pure () b
  · rw [if_neg hbuiltin, if_neg hbuiltin, if_neg hbuiltin]
    exact leads_get ((leads_tell _ b).bind fun _ _ hb' => leads_register site _ hb')

theorem leads_useVariable (name : String) (site : Site) (b : Binding) :
    Leads policy (useVariable policy name site) b (b.names.step (.useVariable name site))
      (b.names.reports (.useVariable name site)) := by
  rw [useVariable, Names.step, Names.reports]
  by_cases hbuiltin : isBuiltinVariable name = true
  · rw [if_pos hbuiltin, if_pos hbuiltin, if_pos hbuiltin]
    exact leads_pure () b
  · rw [if_neg hbuiltin, if_neg hbuiltin, if_neg hbuiltin]
    exact leads_get (leads_register site _ rfl)

theorem leads_callFunction (name : String) (arguments : Nat) (site : Site) (b : Binding) :
    Leads policy (callFunction policy name arguments site) b
      (b.names.withScopes (b.scopes.callFunction name arguments site.id).1)
      (site.reports (b.scopes.callFunction name arguments site.id).2.problem?) := by
  rw [callFunction]
  refine leads_get ?_
  rcases b.scopes.callFunction name arguments site.id with ⟨scopes, outcome⟩
  refine (leads_modify (fun _ => by rfl) b).bind fun _ b' hb' => ?_
  rw [show b.names.withScopes scopes = b'.names from hb'.symm]
  cases outcome with
  | resolved signature => exact leads_tell _ b'
  | problem problem => exact leads_report site problem b'

theorem leads_exchangeCallee (site : Site) (hb : b.names = n) :
    Leads policy (exchangeCallee site) b (n.exchangeCallee site.id) [] := by
  subst hb
  have hnames : b.names.exchangeCallee site.id =
      Binding.names (if b.callees.contains site.id then b
        else { b with
          lastId := b.lastId + 1
          callees := b.callees.insert site.id (b.lastId + 1) }) := by
    unfold Names.exchangeCallee
    cases hcontains : b.callees.contains site.id <;> simp [Binding.names, hcontains]
  rw [hnames]
  exact leads_modify (fun b => by split <;> rfl) b

theorem leads_call (name : String) (callee : Site) (arguments : Nat) (site : Site) (b : Binding) :
    Leads policy (call policy name callee arguments site) b
      (b.names.call name callee.id arguments site.id)
      (b.names.reports (.call name callee arguments site)) := by
  rw [call, Names.call, Names.reports]
  refine leads_get ?_
  by_cases htype : (b.scopes.lookup .type b.current name).isSome = true
  · have htype' : (b.names.scopes.lookup .type b.names.current name).isSome = true := htype
    rw [if_pos htype, if_pos htype', if_pos htype']
    obtain ⟨entry, hlookup⟩ := Option.isSome_iff_exists.mp htype
    have hknown : ∀ node, (b.names.scopes.use .type b.names.current name node).2 = none :=
      fun node => by simp [ScopeTree.use, Binding.names, hlookup]
    refine (leads_tell _ b).bind fun _ b' hb' => leads_get ?_
    rw [show b'.scopes = b.names.scopes from congrArg Names.scopes hb',
      show b'.current = b.names.current from congrArg Names.current hb']
    have hregister : Leads policy (register policy _ _) b' _ _ := leads_register
      ⟨(b.callees.get? site.id).getD callee.id, callee.span⟩
      (b.names.scopes.use .type b.names.current name ((b.callees.get? site.id).getD callee.id)) hb'
    rw [hknown] at hregister
    exact hregister
  · have htype' : ¬(b.names.scopes.lookup .type b.names.current name).isSome = true := htype
    rw [if_neg htype, if_neg htype', if_neg htype']
    by_cases hfunction :
        ((b.scopes.lookupFunction name).isSome || !Vocabulary.isBuiltinFunction name) = true
    · have hfunction' : ((b.names.scopes.lookupFunction name).isSome ||
          !Vocabulary.isBuiltinFunction name) = true := hfunction
      rw [if_pos hfunction, if_pos hfunction', if_pos hfunction']
      exact (leads_callFunction name arguments site b).bind_silent fun _ _ hb' =>
        leads_exchangeCallee site hb'
    · have hfunction' : ¬((b.names.scopes.lookupFunction name).isSome ||
          !Vocabulary.isBuiltinFunction name) = true := hfunction
      rw [if_neg hfunction, if_neg hfunction', if_neg hfunction']
      exact (leads_tell _ b).bind fun _ _ hb' => leads_exchangeCallee site hb'

/-- A step makes its occurrence known and reports what is wrong with it. -/
theorem leads_step {o : Occurrence} (h : b.names.Allows o) :
    Leads policy (step policy o) b (b.names.step o) (b.names.reports o) := by
  cases o with
  | enter name span => exact leads_enter name span b
  | leave => exact leads_leave h
  | declareVariable name site => exact leads_declareVariable name site b
  | useVariable name site => exact leads_useVariable name site b
  | declareType name site =>
    exact leads_get ((leads_tell _ b).bind fun _ _ hb' => leads_register site _ hb')
  | useType name site => exact leads_get (leads_register site _ rfl)
  | declareFunction name signature site | defineFunction name signature site =>
    refine (leads_tell _ b).bind fun _ b' hb' => leads_get ?_
    rw [← hb']
    exact leads_register site _ rfl
  | call name callee arguments site => exact leads_call name callee arguments site b
  | malformed kind => exact h.elim

/-- **A binding is a fold** over occurrences that can all be registered. -/
theorem leads_steps (h : b.names.AllowsAll os) :
    Leads policy (steps policy os) b (os.foldl Names.step b.names) (b.names.reportsAll os) := by
  induction os generalizing b with
  | nil => exact leads_pure () b
  | cons o os ih =>
    refine (leads_step h.1).bind fun _ b' hb' => ?_
    have hrest := ih (b := b') (hb' ▸ h.2)
    rwa [hb'] at hrest

/-- A step that succeeds registers an occurrence that can be registered. -/
theorem allows_of_ok {o : Occurrence} {b' : Binding}
    (h : (step policy o).run.run b = (.ok (), b')) : b.names.Allows o := by
  cases o with
  | leave =>
    rw [step, leave, VisitM.run_bind] at h
    simp only [run_get] at h
    cases hget : b.scopes.get? b.current with
    | none =>
      rw [hget] at h
      cases h
    | some scope =>
      cases hparent : scope.parent with
      | none =>
        simp only [hget, hparent] at h
        cases h
      | some parent => exact ⟨scope, parent, hget, hparent⟩
  | malformed kind => cases h
  | _ => trivial

/-- A binding that succeeds goes through occurrences that can all be registered, and reports what is
wrong with them. -/
theorem steps_leads {b' : Binding} (h : (steps policy os).run.run b = (.ok (), b')) :
    b'.names = os.foldl Names.step b.names ∧
      b'.diagnostics = b.diagnostics ++ b.names.reportsAll os ∧ ∀ kind, .malformed kind ∉ os := by
  induction os generalizing b with
  | nil =>
    cases h
    exact ⟨rfl, (append_nil _).symm, by simp⟩
  | cons o os ih =>
    rw [steps, VisitM.run_bind] at h
    split at h
    · rename_i u b₁ hstep
      obtain ⟨hnames, hreported, hformed⟩ := ih h
      obtain ⟨hnames₁, hreported₁⟩ := (leads_step (allows_of_ok hstep)).of_ok hstep
      rw [hnames₁] at hnames hreported
      refine ⟨hnames, ?_, fun kind hmem => ?_⟩
      · rw [hreported, hreported₁, append_assoc]
        rfl
      · rcases mem_cons.mp hmem with rfl | hmem
        · cases hstep
        · exact hformed kind hmem
    · cases h

/-- A binding that succeeds is a fold over occurrences that are all well-formed. -/
theorem steps_names {b' : Binding} (h : (steps policy os).run.run b = (.ok (), b')) :
    b'.names = os.foldl Names.step b.names ∧ ∀ kind, .malformed kind ∉ os :=
  ⟨(steps_leads h).1, (steps_leads h).2.2⟩

end BindM

/-! ### References in scopes -/

/-- A scope lists the node as a reference to the name. -/
def Scope.Refers (s : Scope) (target : RenameTarget) (name : String) (i : NodeId) : Prop :=
  ∃ ids, (name, ids) ∈ s.references target ∧ i ∈ ids

/-- Some scope lists the node as a reference to the name. -/
def ScopeTree.Refers (t : ScopeTree) (target : RenameTarget) (name : String) (i : NodeId) : Prop :=
  ∃ s ∈ t.scopes, s.Refers target name i

/-- The registry that holds the entries of a class. -/
def NameClass.target : NameClass → RenameTarget
  | .var => .vars
  | .type => .types

/-- The nodes that refer to functions of one name. -/
def Overloads.references (os : Overloads) : List NodeId :=
  os.flatMap fun e => e.2.references

theorem Scope.refers_entries {c : NameClass} {name : String} :
    s.Refers c.target name i ↔ ∃ e, (name, e) ∈ s.entries c ∧ i ∈ e.references := by
  cases c <;>
    simp [Scope.Refers, NameClass.target, Scope.references, Scope.entries, mem_map,
      Prod.exists]

theorem Scope.refers_functions {name : String} :
    s.Refers .functions name i ↔ ∃ os, (name, os) ∈ s.functions ∧ i ∈ Overloads.references os := by
  simp [Scope.Refers, Scope.references, Overloads.references, mem_map, Prod.exists]

namespace ScopeTree

variable {t : ScopeTree} {target : RenameTarget} {x : String} {i : NodeId}

theorem mem_modify {j : ScopeId} {f : Scope → Scope} (h : s ∈ (t.modify j f).scopes) :
    s ∈ t.scopes ∨ ∃ s₀, t.get? j = some s₀ ∧ s = f s₀ := by
  obtain ⟨k, hk⟩ := mem_iff_getElem?.mp h
  rw [modify, getElem?_modify] at hk
  obtain ⟨s₀, hs₀, heq⟩ := Option.map_eq_some_iff.mp hk
  by_cases hjk : j = k
  · subst hjk
    rw [if_pos rfl] at heq
    exact .inr ⟨s₀, hs₀, heq.symm⟩
  · rw [if_neg hjk] at heq
    exact .inl (heq ▸ mem_of_getElem? hs₀)

theorem mem_of_get? {j : ScopeId} (h : t.get? j = some s) : s ∈ t.scopes :=
  mem_of_getElem? h

end ScopeTree

/-! ### What a step does -/

/-- The occurrence registers the node as a reference to the name, where `callees` gives the
identities of new callees. A call registers itself as a reference to a function if its callee is
exchanged. As a reference to a type it registers its callee, old or new. -/
inductive Occurrence.Registers (callees : Registry NodeId NodeId) :
    Occurrence → RenameTarget → String → NodeId → Prop
  | declaredVariable {name site} : Registers callees (.declareVariable name site) .vars name site.id
  | usedVariable {name site} : Registers callees (.useVariable name site) .vars name site.id
  | declaredType {name site} : Registers callees (.declareType name site) .types name site.id
  | usedType {name site} : Registers callees (.useType name site) .types name site.id
  | declaredFunction {name signature site} :
      Registers callees (.declareFunction name signature site) .functions name site.id
  | definedFunction {name signature site} :
      Registers callees (.defineFunction name signature site) .functions name site.id
  | calledFunction {name callee arguments site fresh} :
      callees.get? site.id = some fresh →
      Registers callees (.call name callee arguments site) .functions name site.id
  | calledType {name callee arguments site} :
      Registers callees (.call name callee arguments site) .types name callee.id
  | calledExchanged {name callee arguments site fresh} :
      callees.get? site.id = some fresh →
      Registers callees (.call name callee arguments site) .types name fresh

theorem Occurrence.Registers.mono {callees callees' : Registry NodeId NodeId} {o : Occurrence}
    {target : RenameTarget} {x : String} (h : o.Registers callees target x i)
    (hmono : ∀ i v, callees.get? i = some v → callees'.get? i = some v) :
    o.Registers callees' target x i := by
  cases h with
  | declaredVariable => exact .declaredVariable
  | usedVariable => exact .usedVariable
  | declaredType => exact .declaredType
  | usedType => exact .usedType
  | declaredFunction => exact .declaredFunction
  | definedFunction => exact .definedFunction
  | calledFunction hget => exact .calledFunction (hmono _ _ hget)
  | calledType => exact .calledType
  | calledExchanged hget => exact .calledExchanged (hmono _ _ hget)

namespace Names

variable {b : Names} {target : RenameTarget} {x : String} {i : NodeId}

@[simp] theorem scopes_withScopes (t : ScopeTree) : (b.withScopes t).scopes = t :=
  rfl

@[simp] theorem scopes_exchangeCallee (site : NodeId) :
    (b.exchangeCallee site).scopes = b.scopes := by
  unfold exchangeCallee
  split <;> rfl

/-- Exchanging the callee of a call takes a fresh identity unless it was done before. -/
theorem exchangeCallee_cases (b : Names) (site : NodeId) :
    (∃ v, b.callees.get? site = some v) ∧ b.exchangeCallee site = b ∨
      b.callees.get? site = none ∧
        (b.exchangeCallee site).callees = b.callees.insert site (b.lastId + 1) ∧
        (b.exchangeCallee site).lastId = b.lastId + 1 := by
  unfold exchangeCallee Registry.contains
  cases hget : b.callees.get? site with
  | none => exact .inr ⟨rfl, rfl, rfl⟩
  | some v => exact .inl ⟨⟨v, rfl⟩, rfl⟩

theorem exists_get?_exchangeCallee (b : Names) (site : NodeId) :
    ∃ v, (b.exchangeCallee site).callees.get? site = some v := by
  rcases b.exchangeCallee_cases site with ⟨⟨v, hget⟩, heq⟩ | ⟨-, hcallees, -⟩
  · exact ⟨v, by rw [heq, hget]⟩
  · exact ⟨b.lastId + 1, by rw [hcallees, Registry.get?_insert, if_pos rfl]⟩

/-- A step gives a new callee to a call that had none, or leaves all callees as they are. -/
theorem step_callees (b : Names) (o : Occurrence) :
    (b.step o).callees = b.callees ∧ (b.step o).lastId = b.lastId ∨
      ∃ name callee arguments site, o = .call name callee arguments site ∧
        b.callees.get? site.id = none ∧
        (b.step o).callees = b.callees.insert site.id (b.lastId + 1) ∧
        (b.step o).lastId = b.lastId + 1 := by
  cases o with
  | enter | leave | declareType | useType | declareFunction | defineFunction | malformed =>
    exact .inl ⟨rfl, rfl⟩
  | declareVariable name site | useVariable name site =>
    left
    simp only [step]
    split <;> exact ⟨rfl, rfl⟩
  | call name callee arguments site =>
    have hexchange : ∀ b' : Names, b'.callees = b.callees → b'.lastId = b.lastId →
        (b'.exchangeCallee site.id).callees = b.callees ∧
          (b'.exchangeCallee site.id).lastId = b.lastId ∨
        b.callees.get? site.id = none ∧
          (b'.exchangeCallee site.id).callees = b.callees.insert site.id (b.lastId + 1) ∧
          (b'.exchangeCallee site.id).lastId = b.lastId + 1 := by
      intro b' hcallees hlast
      rw [← hcallees, ← hlast]
      rcases b'.exchangeCallee_cases site.id with ⟨-, heq⟩ | h
      · exact .inl ⟨by rw [heq], by rw [heq]⟩
      · exact .inr h
    simp only [step, call]
    split
    · exact .inl ⟨rfl, rfl⟩
    · split
      · exact (hexchange (b.withScopes (b.scopes.callFunction name arguments site.id).1) rfl
          rfl).imp_right fun h => ⟨name, callee, arguments, site, rfl, h⟩
      · exact (hexchange b rfl rfl).imp_right fun h => ⟨name, callee, arguments, site, rfl, h⟩

/-- New callees stay. -/
theorem step_callees_mono (b : Names) (o : Occurrence) {v : NodeId}
    (h : b.callees.get? i = some v) : (b.step o).callees.get? i = some v := by
  rcases b.step_callees o with ⟨hcallees, -⟩ | ⟨_, _, _, site, -, hnone, hcallees, -⟩
  · rw [hcallees, h]
  · have hne : site.id ≠ i := by
      rintro rfl
      rw [hnone] at h
      cases h
    rw [hcallees, Registry.get?_insert, if_neg hne, h]

theorem current_exchangeCallee (b : Names) (site : NodeId) :
    (b.exchangeCallee site).current = b.current := by
  unfold exchangeCallee
  split <;> rfl

end Names

end ShaderSource
