import ShaderSource.Proofs.Overloading
import ShaderSource.Proofs.Resolution

/-!
# What is reported about variables

Diagnostics are made while names are registered, one occurrence after the other. Those about
variables can be read off the registries in the end: a variable was used before it was declared if
the first node that its entry lists is a use, and it was declared twice at each node that declares
it but the first. Whether a node declares a variable is seen from where it stands in the tree.

## Main results

* `Program.BoundAs.matchesTree`: the occurrences of a program are true of its tree.
* `Names.Valid.recordsVariable`: what a step does to variables, and what it reports.
* `Names.MatchesTree.reports_undeclaredVariable`, `Names.MatchesTree.reports_duplicateVariable`: a
  step reports what the registries show after it and did not show before.
-/

namespace ShaderSource

open Entry List Node ScopeTree

/-! ### Places of names -/

/-- Whether the identity is that of a node at which a variable or a member is declared. -/
def Node.declaresAt (root : Node) (i : NodeId) : Bool :=
  root.preorder.any fun n => Kind.declaresAt.any fun place =>
    n.kind == place.1 && (n.field place.2).any fun m => m.id == i

/-- `Node.declaresAt` tests for `Node.IsDeclared`. -/
theorem Node.declaresAt_iff {root : Node} {i : NodeId} :
    root.declaresAt i = true ↔ ∃ m, m.id = i ∧ root.IsDeclared m := by
  simp only [declaresAt, any_eq_true, Bool.and_eq_true, beq_iff_eq]
  constructor
  · rintro ⟨n, hn, ⟨k, j⟩, hplace, hkind, m, hm, hid⟩
    obtain rfl : n.kind = k := hkind
    exact ⟨m, hid, n, hn, j, hplace, hm⟩
  · rintro ⟨m, hid, n, hn, j, hplace, hm⟩
    exact ⟨n, hn, (n.kind, j), hplace, rfl, m, hm, hid⟩

/-- The name that is called at the node with the identity: the word that the call begins with. -/
def Node.calledAt? (root : Node) (i : NodeId) : Option String :=
  (root.preorder.find? fun n => n.id == i).bind fun n => n.tokens.head?.map Token.text

/-- The call with an identity is found by it. -/
theorem Node.Distinct.calledAt? {root n : Node} (h : root.Distinct) (hn : n ∈ root.preorder) :
    root.calledAt? n.id = n.tokens.head?.map Token.text := by
  obtain ⟨m, hfind⟩ : ∃ m, root.preorder.find? (fun m => m.id == n.id) = some m := by
    rw [← Option.isSome_iff_exists, find?_isSome]
    exact ⟨n, hn, beq_self_eq_true _⟩
  have hid : m.id = n.id := by simpa using find?_some hfind
  obtain rfl := h.eq_of_id (mem_of_find?_eq_some hfind) hn hid
  rw [Node.calledAt?, hfind]
  rfl

/-- A node is in one part only of the node above it. -/
theorem Node.Distinct.field_unique {n c : Node} (hn : n.Distinct) {i j : Nat} (hi : c ∈ n.field i)
    (hj : c ∈ n.field j) : i = j := by
  have hlt : ∀ k, c ∈ n.field k → k ∈ List.range n.parts.length := by
    intro k hk
    rw [mem_range]
    refine Nat.lt_of_not_le fun hle => ?_
    rw [field, getElem?_eq_none hle] at hk
    cases hk
  rw [Node.Distinct, ids_eq, nodup_cons, flatMap_children, nodup_flatMap] at hn
  by_contra hne
  have hsymm : Std.Symm (Function.onFun List.Disjoint
      fun i => (n.field i).flatMap ids) := ⟨fun _ _ h _ ha hb => h hb ha⟩
  have hdisjoint := hn.2.2.forall (hlt i hi) (hlt j hj) hne
  have hid := id_mem_ids c.mem_preorder_self
  exact hdisjoint (mem_flatMap.mpr ⟨c, hi, hid⟩) (mem_flatMap.mpr ⟨c, hj, hid⟩)

/-- No plan goes through the name of what it declares. -/
theorem Kind.visit_declaresAt {k : Kind} {role role' : Role} {i : Nat}
    (hi : (k, i) ∈ Kind.declaresAt) : .visit [i] role' ∉ k.plan role := by
  rcases Kind.mem_declaresAt.mp hi with ⟨rfl, rfl⟩ | ⟨rfl, rfl⟩ | ⟨rfl, rfl⟩ | ⟨rfl, rfl⟩ <;>
    cases role <;> simp [Kind.plan]

/-- Variables are declared in nodes of four kinds only. -/
theorem Kind.declaresAt_ne {k : Kind} {i : Nat} (h : (k, i) ∈ Kind.declaresAt) :
    k ≠ .typeSpecifier ∧ k ≠ .typeName ∧ k ≠ .functionCall ∧ k ≠ .identifier ∧
      k ≠ .interfaceBlock ∧ k.isPassed = false := by
  rcases Kind.mem_declaresAt.mp h with ⟨rfl, -⟩ | ⟨rfl, -⟩ | ⟨rfl, -⟩ | ⟨rfl, -⟩ <;> decide

/-- The occurrence is true of the tree: functions are registered at their nodes, variables are
declared and used where the tree does so, and the name of a call is the word it begins with. -/
structure Occurrence.MatchesTree (root : Node) (o : Occurrence) : Prop where
  functions : Names.SpeaksOf root o
  declared : ∀ {name site}, o = .declareVariable name site → root.declaresAt site.id = true
  used : ∀ {name site}, o = .useVariable name site → root.declaresAt site.id = false
  called : ∀ {name callee arguments site}, o = .call name callee arguments site →
    root.calledAt? site.id = some name

namespace Program.BoundAs

variable {p : Program} {tree : Node} {last : NodeId} {b : Names} (h : p.BoundAs tree last b)

include h

/-- What is declared in the tree that was read is declared in the program. -/
theorem isDeclared_iff {m : Node} (hm : m ∈ tree.preorder) :
    p.root.declaresAt m.id = true ↔ tree.IsDeclared m := by
  rw [declaresAt_iff]
  constructor
  · rintro ⟨c, hid, holder, hholder, i, hi, hc⟩
    obtain ⟨-, -, hcall, hidentifier, -⟩ := Kind.declaresAt_ne hi
    obtain ⟨d, hd, rfl⟩ := (h.mem_root_cases hholder).resolve_right fun hnew =>
      hidentifier hnew.1
    rw [kind_exchangeCallees] at hi hcall
    rw [field_exchangeCallees b.callees hcall, mem_map] at hc
    obtain ⟨c, hc, rfl⟩ := hc
    rw [id_exchangeCallees] at hid
    have hmem : c ∈ tree.preorder := mem_preorder_trans hd
      (mem_preorder_of_mem_child (mem_children_iff.mpr ⟨i, hc⟩) c.mem_preorder_self)
    obtain rfl := Distinct.eq_of_id h.ids.nodup hmem hm hid
    exact ⟨d, hd, i, hi, hc⟩
  · rintro ⟨holder, hholder, i, hi, hc⟩
    obtain ⟨htype, hname, hcall, -⟩ := Kind.declaresAt_ne hi
    refine ⟨m.exchangeCallees b.callees, id_exchangeCallees _ _,
      holder.exchangeCallees b.callees, ?_, i, ?_, ?_⟩
    · rw [h.root]
      exact exchangeCallees_mem b.callees hholder htype hname
    · rwa [kind_exchangeCallees]
    · rw [field_exchangeCallees b.callees hcall]
      exact mem_map_of_mem hc

/-- What is gone through is not declared. -/
theorem not_isDeclared {m : Node} {role : Role} (hreaches : tree.Reaches .plain m role) :
    ¬tree.IsDeclared m := by
  rintro ⟨holder, hholder, i, hi, hm⟩
  obtain ⟨-, -, hcall, -, hblock, hpassed⟩ := Kind.declaresAt_ne hi
  obtain ⟨role', role'', j, -, hmove, hfield⟩ := hreaches.parent h.fit h.ids.nodup hholder
    (mem_children_iff.mpr ⟨i, hm⟩) hpassed
  obtain rfl := Distinct.field_unique (Distinct.below h.ids.nodup hholder) hm hfield
  rw [plan_of_kind hcall hblock] at hmove
  exact Kind.visit_declaresAt hi hmove

/-- The occurrences of the tree that was read are true of the tree of the program. -/
theorem matchesTree (hsource : tree.FromSource) {o : Occurrence}
    (ho : o ∈ tree.occurrences .plain) : o.MatchesTree p.root where
  functions := h.toComesFrom.speaksOf hsource ho
  declared := by
    rintro name site rfl
    have habout := occurrence_about h.fit ho
    cases habout with
    | @declareVariable id span t hleaf =>
      exact (h.isDeclared_iff hleaf).mpr (h.fit.isDeclared h.ids.nodup hleaf ho)
  used := by
    rintro name site rfl
    obtain ⟨m, role, hreaches, hutters⟩ := h.fit.origin ho
    generalize hsame : Occurrence.useVariable name site = o at hutters
    cases hutters with
    | useVariable hmove =>
      cases hsame
      rw [← Bool.not_eq_true]
      exact fun hdeclares => h.not_isDeclared hreaches
        ((h.isDeclared_iff hreaches.mem).mp hdeclares)
    | _ => cases hsame
  called := by
    rintro name callee arguments site rfl
    have habout := occurrence_about h.fit ho
    cases habout with
    | @call id span callee parts arguments hcall =>
      have hmem := exchangeCallees_mem b.callees hcall (by simp) (by simp)
      rw [← h.root] at hmem
      have hcalled := Distinct.calledAt? h.distinct hmem
      rw [id_exchangeCallees, tokens_exchangeCallees] at hcalled
      exact hcalled

end Program.BoundAs

/-! ### Reports -/

/-- The nodes of the diagnostics of some kinds. -/
def Diagnostic.nodesOf (kinds : List DiagnosticKind) (ds : List Diagnostic) : List NodeId :=
  (ds.filter fun d => kinds.contains d.kind).map Diagnostic.node

namespace Diagnostic

variable {kinds : List DiagnosticKind}

theorem nodesOf_append (ds ds' : List Diagnostic) :
    nodesOf kinds (ds ++ ds') = nodesOf kinds ds ++ nodesOf kinds ds' := by
  rw [nodesOf, filter_append, map_append]
  rfl

theorem nodesOf_eq_nil {ds : List Diagnostic} (h : ∀ d ∈ ds, d.kind ∉ kinds) :
    nodesOf kinds ds = [] := by
  rw [nodesOf, filter_eq_nil_iff.mpr fun d hd => by simpa using h d hd]
  rfl

/-- What is reported at a site, if its kind is one of the given ones. -/
theorem nodesOf_reports (site : Site) (problem : Option Problem) :
    nodesOf kinds (site.reports problem) =
      if problem.any (fun q => kinds.contains q.kind) then [site.id] else [] := by
  cases problem with
  | none => rfl
  | some q =>
    simp only [Site.reports, Option.map_some, Option.toList_some, Option.any_some, nodesOf,
      filter_cons, filter_nil, Problem.diagnostic]
    split <;> rfl

end Diagnostic

/-- The members of a list that satisfy a predicate, but the first of them, after one more. -/
theorem tail_filter_concat {α : Type} (p : α → Bool) (l : List α) (a : α) :
    ((l ++ [a]).filter p).tail =
      (l.filter p).tail ++ if l.any p && p a then [a] else [] := by
  rw [filter_append]
  cases hl : l.filter p with
  | nil =>
    have hnone : l.any p = false := by
      rw [any_eq_false]
      exact filter_eq_nil_iff.mp hl
    rw [hnone]
    cases hp : p a <;> simp [hp]
  | cons x xs =>
    have hx : x ∈ l.filter p := hl ▸ mem_cons_self
    have hany : l.any p = true := any_eq_true.mpr ⟨x, mem_filter.mp hx⟩
    rw [hany]
    cases hp : p a <;> simp [hp]

theorem take_one_concat {α : Type} {l : List α} (h : l ≠ []) (a : α) :
    (l ++ [a]).take 1 = l.take 1 := by
  obtain ⟨x, xs, rfl⟩ := exists_cons_of_ne_nil h
  rfl

/-! ### Variables -/

/-- The variables of all scopes. -/
def ScopeTree.bindings (t : ScopeTree) : List Entry :=
  t.scopes.flatMap fun s => s.vars.map Prod.snd

/-- The declaration of an entry is the first of its references that declare a variable, if any does,
and it has a reference. -/
structure Entry.DeclaredFirst (declares : NodeId → Bool) (e : Entry) : Prop where
  nonempty : e.references ≠ []
  declaration : e.declaration = (e.references.filter declares).head?

namespace Entry

/-- The first node of the entry, if it is a use. -/
def firstUse (declares : NodeId → Bool) (e : Entry) : List NodeId :=
  (e.references.take 1).filter fun i => !declares i

/-- The nodes that declare the entry once more. -/
def redeclarations (declares : NodeId → Bool) (e : Entry) : List NodeId :=
  (e.references.filter declares).tail

variable {declares : NodeId → Bool} {e : Entry} {node : NodeId}

/-- A declaration comes first, or an earlier one stays. -/
theorem declaredFirst_declare (h : e.declaration = (e.references.filter declares).head?)
    (hnode : declares node = true) : (e.declare node).DeclaredFirst declares where
  nonempty := by simp [declare]
  declaration := by
    rw [declare, filter_append, head?_append, ← h]
    cases e.declaration <;> simp [hnode]

/-- A use leaves the declaration as it is. -/
theorem declaredFirst_use (h : e.declaration = (e.references.filter declares).head?)
    (hnode : declares node = false) : (e.use node).DeclaredFirst declares where
  nonempty := by simp [use]
  declaration := by
    rw [use, filter_append, head?_append, ← h]
    simp [hnode]

/-- A declaration is no use. -/
theorem firstUse_declare (hnode : declares node = true) (e : Entry) :
    (e.declare node).firstUse declares = e.firstUse declares := by
  by_cases hnil : e.references = []
  · simp [firstUse, declare, hnil, hnode]
  · rw [firstUse, declare, take_one_concat hnil, firstUse]

/-- Later uses are not the first. -/
theorem firstUse_use (h : e.DeclaredFirst declares) :
    (e.use node).firstUse declares = e.firstUse declares := by
  rw [firstUse, use, take_one_concat h.nonempty, firstUse]

/-- A use is no declaration. -/
theorem redeclarations_use (hnode : declares node = false) (e : Entry) :
    (e.use node).redeclarations declares = e.redeclarations declares := by
  rw [redeclarations, use, tail_filter_concat, hnode]
  simp [redeclarations]

/-- A declaration is another one if there is one already. -/
theorem redeclarations_declare (h : e.declaration = (e.references.filter declares).head?)
    (hnode : declares node = true) :
    (e.declare node).redeclarations declares =
      e.redeclarations declares ++ if e.declaration.isSome then [node] else [] := by
  have hany : e.references.any declares = e.declaration.isSome := by
    rw [h, head?_filter, Bool.eq_iff_iff, find?_isSome, any_eq_true]
  rw [redeclarations, declare, tail_filter_concat, hany, hnode, Bool.and_true]
  rfl

end Entry

namespace ScopeTree

variable {t : ScopeTree}

/-- Variables stay if no scope changes its own. -/
theorem bindings_modify {f : Scope → Scope} (hf : ∀ s, (f s).vars = s.vars) (t : ScopeTree)
    (j : ScopeId) : (t.modify j f).bindings = t.bindings := by
  obtain ⟨scopes⟩ := t
  unfold bindings modify
  dsimp only
  induction scopes generalizing j with
  | nil => rw [modify_nil]
  | cons s rest ih =>
    cases j with
    | zero => simp [hf]
    | succ j => rw [modify_succ_cons, flatMap_cons, flatMap_cons, ih]

/-- Types are no variables. -/
theorem bindings_modifyTypes (t : ScopeTree) (j : ScopeId)
    (f : Registry String Entry → Registry String Entry) :
    (t.modifyEntries j .type f).bindings = t.bindings := by
  unfold modifyEntries
  exact bindings_modify (f := fun s => s.setEntries .type (f (s.entries .type)))
    (fun _ => rfl) t j

/-- Functions are no variables. -/
theorem bindings_setOverloads (t : ScopeTree) (name : String) (os : Overloads) :
    (t.setOverloads name os).bindings = t.bindings := by
  unfold setOverloads
  exact bindings_modify (f := fun s => { s with functions := s.functions.insert name os })
    (fun _ => rfl) t 0

/-- A new scope has no variables. -/
theorem bindings_push (t : ScopeTree) (parent : ScopeId) (name : String) (span : Option Span) :
    (t.push parent name span).1.bindings = t.bindings := by
  simp [bindings, push, Scope.fresh]

/-- The entry of a variable in a scope. -/
def binding? (t : ScopeTree) (j : ScopeId) (name : String) : Option Entry :=
  (t.get? j).bind fun s => s.vars.get? name

/-- The variable of a name in a scope is one of the variables. -/
theorem mem_bindings {j : ScopeId} {name : String} {e : Entry}
    (h : t.binding? j name = some e) : e ∈ t.bindings := by
  obtain ⟨s, hs, he⟩ := Option.bind_eq_some_iff.mp h
  exact mem_flatMap.mpr ⟨s, mem_of_get? hs,
    mem_map.mpr ⟨_, Registry.mem_of_get? he, rfl⟩⟩

section Record

variable {j : ScopeId} {name : String} {g : Entry → Entry}

/-- Recording a variable changes or adds one entry. -/
theorem mem_bindings_record {e : Entry} (he : e ∈ (t.record .var j name g).bindings) :
    e = g ((t.binding? j name).getD ⟨none, []⟩) ∨ e ∈ t.bindings := by
  obtain ⟨s, hs, he⟩ := mem_flatMap.mp he
  obtain ⟨⟨x, e⟩, hmem, rfl⟩ := mem_map.mp he
  rcases mem_modify hs with hs | ⟨s₀, hget, rfl⟩
  · exact .inr (mem_flatMap.mpr ⟨s, hs, he⟩)
  · rcases Registry.mem_insert hmem with heq | hmem
    · left
      rw [binding?, hget]
      exact (Prod.mk.inj heq).2
    · exact .inr (mem_flatMap.mpr ⟨s₀, mem_of_get? hget, mem_map.mpr ⟨_, hmem, rfl⟩⟩)

/-- What is gathered from the variables when one of them has changed. -/
theorem bindings_record {β : Type} (hj : j < t.size) {f : Entry → List β} {xs : List β}
    (h : (f (g ((t.binding? j name).getD ⟨none, []⟩))).Perm
      (xs ++ ((t.binding? j name).map f).getD [])) :
    ((t.record .var j name g).bindings.flatMap f).Perm (xs ++ t.bindings.flatMap f) := by
  obtain ⟨s, hget⟩ := exists_get?_of_lt hj
  have hbinding : t.binding? j name = s.vars.get? name := by rw [binding?, hget]; rfl
  rw [hbinding] at h
  have hgather : ∀ t : ScopeTree, t.bindings.flatMap f =
      t.scopes.flatMap fun s => s.vars.flatMap fun e => f e.2 := by
    intro t
    simp [bindings, flatMap_assoc, flatMap_map]
  rw [hgather, hgather, record, modifyEntries]
  refine flatMap_modify (g := fun s => s.vars.flatMap fun e => f e.2) hget ?_
  exact Registry.flatMap_insert_append (f := fun e => f e.2) h

end Record

end ScopeTree

namespace Names

/-- The registries are true of the tree: the declarations of variables are references that the tree
declares, and functions list nodes of it. -/
structure MatchesTree (root : Node) (b : Names) : Prop where
  valid : b.Valid
  bindings : ∀ e ∈ b.scopes.bindings, e.DeclaredFirst root.declaresAt
  functions : ∀ x, (b.scopes.overloads x).Sound root
  called : ∀ x, ∀ e ∈ b.scopes.overloads x, e.2.references ≠ []

variable {b : Names} {root : Node} {o : Occurrence}

/-- The kinds of what is reported about variables. -/
def variableKinds : List DiagnosticKind :=
  [.undeclaredVariable, .duplicateVariable]

/-- What a step does to variables, and what it reports about them. -/
inductive RecordsVariable (b : Names) : Occurrence → Prop
  | declare {name site} :
      (b.step (.declareVariable name site)).scopes =
        b.scopes.record .var b.current name (fun e => e.declare site.id) →
      b.reports (.declareVariable name site) =
        site.reports (if ((b.scopes.binding? b.current name).bind Entry.declaration).isSome then
          some (.duplicateVariable name (b.scopes.nameOf b.current)) else none) →
      RecordsVariable b (.declareVariable name site)
  | use {name site j} :
      j < b.scopes.size →
      (b.step (.useVariable name site)).scopes =
        b.scopes.record .var j name (fun e => e.use site.id) →
      b.reports (.useVariable name site) =
        site.reports (if (b.scopes.binding? j name).isSome then none
          else some (.undeclaredVariable name)) →
      RecordsVariable b (.useVariable name site)
  | other {o : Occurrence} :
      (b.step o).scopes.bindings = b.scopes.bindings →
      (∀ d ∈ b.reports o, d.kind ∉ variableKinds) → RecordsVariable b o

/-- Where a use is registered, and whether it is reported. -/
theorem Valid.use_variable (h : b.Valid) (name : String) (node : NodeId) :
    b.scopes.resolve .var b.current name < b.scopes.size ∧
      (b.scopes.use .var b.current name node).2 =
        if (b.scopes.binding? (b.scopes.resolve .var b.current name) name).isSome then none
        else some (.undeclaredVariable name) := by
  refine ⟨h.scopes.resolve_lt h.current name, ?_⟩
  unfold ScopeTree.use resolve ScopeTree.binding?
  cases hlookup : b.scopes.lookup .var b.current name with
  | none =>
    obtain ⟨s, hget⟩ := exists_get?_of_lt h.current
    have hnone : s.vars.get? name = none := lookup_eq_none hlookup hget
    simp [hget, hnone, undeclared]
  | some found =>
    obtain ⟨s, e⟩ := found
    obtain ⟨hs, he⟩ := lookup_eq_some hlookup
    have hget : s.vars.get? name = some e := he
    simp [h.scopes.get?_of_mem hs, hget]

/-- Every step declares a variable, uses one or leaves them alone. -/
theorem Valid.recordsVariable (h : b.Valid) (o : Occurrence) : b.RecordsVariable o := by
  -- What is done about types and functions does not matter.
  have hother : o.isFlat = true → (∀ name, (b.effect o).act ≠ .declare .var name) →
      (∀ name, (b.effect o).act ≠ .use .var name) → b.RecordsVariable o := by
    intro hflat hdeclare huse
    refine .other ?_ fun d hd => ?_
    · rw [(b.scopes_step hflat).2]
      cases hact : (b.effect o).act with
      | nothing => rfl
      | declare c name =>
        cases c with
        | var => exact absurd hact (hdeclare name)
        | type => exact bindings_modifyTypes _ _ _
      | use c name =>
        cases c with
        | var => exact absurd hact (huse name)
        | type =>
          rw [perform, h.scopes.use_eq]
          exact bindings_modifyTypes _ _ _
      | register r name =>
        obtain ⟨os, hos⟩ := b.scopes.register_eq_setOverloads r name (b.effect o).site.id
        rw [perform, hos]
        exact bindings_setOverloads _ _ _
    · have hkind := kind_of_reports hd
      generalize (b.effect o).act = act at hkind hdeclare huse
      rcases act with _ | ⟨_ | _, name⟩ | ⟨_ | _, name⟩ | ⟨_ | _ | _, name⟩ <;>
        simp [Act.faults, Registration.faults, duplicate, undeclared,
          Problem.kind, variableKinds] at hkind hdeclare huse ⊢ <;> grind
  cases o with
  | enter name span => exact .other (bindings_push _ _ _ _) (by simp [reports])
  | leave => exact .other rfl (by simp [reports])
  | declareVariable name site =>
    by_cases hname : Vocabulary.isBuiltinVariable name = true
    · exact hother rfl (by simp [effect, hname]) (by simp [effect, hname])
    · refine .declare ?_ ?_
      · rw [Names.step, if_neg hname, scopes_withScopes, declare_eq]
      · rw [reports, if_neg hname]
        rfl
  | useVariable name site =>
    by_cases hname : Vocabulary.isBuiltinVariable name = true
    · exact hother rfl (by simp [effect, hname]) (by simp [effect, hname])
    · obtain ⟨hlt, hproblem⟩ := h.use_variable name site.id
      refine .use hlt ?_ ?_
      · rw [Names.step, if_neg hname, scopes_withScopes, h.scopes.use_eq]
      · rw [reports, if_neg hname, hproblem]
  | call name callee arguments site =>
    refine hother rfl (fun x => ?_) fun x => ?_ <;>
    · simp only [effect]
      split
      · simp
      · split <;> simp
  | _ => exact hother rfl (by simp [effect]) (by simp [effect])

namespace MatchesTree

section Variables

variable (h : b.MatchesTree root) (ho : o.MatchesTree root)

include h

/-- The declaration of a variable is its first declaring reference; an unknown one has neither. -/
theorem declaration_eq (j : ScopeId) (name : String) :
    ((b.scopes.binding? j name).getD ⟨none, []⟩).declaration =
      (((b.scopes.binding? j name).getD ⟨none, []⟩).references.filter root.declaresAt).head? := by
  cases hknown : b.scopes.binding? j name with
  | none => rfl
  | some e => exact (h.bindings e (mem_bindings hknown)).declaration

include ho

/-- A step keeps the declarations of variables first. -/
theorem bindings_step : ∀ e ∈ (b.step o).scopes.bindings, e.DeclaredFirst root.declaresAt := by
  intro e he
  cases h.valid.recordsVariable o with
  | declare hstep _ =>
    rw [hstep] at he
    rcases mem_bindings_record he with rfl | he
    · exact declaredFirst_declare (h.declaration_eq _ _) (ho.declared rfl)
    · exact h.bindings e he
  | use _ hstep _ =>
    rw [hstep] at he
    rcases mem_bindings_record he with rfl | he
    · exact declaredFirst_use (h.declaration_eq _ _) (ho.used rfl)
    · exact h.bindings e he
  | other hstep _ =>
    rw [hstep] at he
    exact h.bindings e he

/-- A step reports a variable as not declared if it is the first to list it, and uses it. -/
theorem reports_undeclaredVariable :
    ((b.step o).scopes.bindings.flatMap (Entry.firstUse root.declaresAt)).Perm
      (Diagnostic.nodesOf [.undeclaredVariable] (b.reports o) ++
        b.scopes.bindings.flatMap (Entry.firstUse root.declaresAt)) := by
  cases h.valid.recordsVariable o with
  | @declare name site hstep hreports =>
    have hnone : Diagnostic.nodesOf [.undeclaredVariable]
        (b.reports (.declareVariable name site)) = [] := by
      rw [hreports]
      split <;> rfl
    rw [hstep, hnone]
    refine bindings_record h.valid.current ?_
    rw [Entry.firstUse_declare (ho.declared rfl)]
    cases b.scopes.binding? b.current name <;> exact .refl _
  | @use name site j hj hstep hreports =>
    rw [hstep, hreports, Diagnostic.nodesOf_reports]
    refine bindings_record hj ?_
    cases hknown : b.scopes.binding? j name with
    | none =>
      have hnode := ho.used rfl
      simp [Entry.firstUse, Entry.use, Problem.kind, hnode]
    | some e =>
      have he := h.bindings e (mem_bindings hknown)
      rw [Option.getD_some, Entry.firstUse_use he]
      exact .refl _
  | other hstep hreports =>
    rw [hstep, Diagnostic.nodesOf_eq_nil fun d hd hkind => hreports d hd ?_]
    · exact .refl _
    · rw [mem_singleton.mp hkind]
      decide

/-- A step reports a variable as declared twice if it declares one that is declared. -/
theorem reports_duplicateVariable :
    ((b.step o).scopes.bindings.flatMap (Entry.redeclarations root.declaresAt)).Perm
      (Diagnostic.nodesOf [.duplicateVariable] (b.reports o) ++
        b.scopes.bindings.flatMap (Entry.redeclarations root.declaresAt)) := by
  cases h.valid.recordsVariable o with
  | @declare name site hstep hreports =>
    rw [hstep, hreports, Diagnostic.nodesOf_reports]
    refine bindings_record h.valid.current ?_
    rw [redeclarations_declare (h.declaration_eq _ _) (ho.declared rfl)]
    cases b.scopes.binding? b.current name with
    | none => exact .refl _
    | some e =>
      cases hdeclaration : e.declaration with
      | none => simp [hdeclaration]
      | some i => simp [hdeclaration, Problem.kind]
  | @use name site j hj hstep hreports =>
    have hnone : Diagnostic.nodesOf [.duplicateVariable]
        (b.reports (.useVariable name site)) = [] := by
      rw [hreports]
      split <;> rfl
    rw [hstep, hnone]
    refine bindings_record hj ?_
    rw [redeclarations_use (ho.used rfl)]
    cases b.scopes.binding? j name <;> exact .refl _
  | other hstep hreports =>
    rw [hstep, Diagnostic.nodesOf_eq_nil fun d hd hkind => hreports d hd ?_]
    · exact .refl _
    · rw [mem_singleton.mp hkind]
      decide

end Variables

end MatchesTree

end Names

end ShaderSource
