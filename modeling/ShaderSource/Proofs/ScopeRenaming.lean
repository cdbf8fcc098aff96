import ShaderSource.Proofs.Nesting
import ShaderSource.Proofs.Rebinding

/-!
# Scopes with renamed variables

Two bindings go side by side, the second of a tree in which the variables of one scope have other
names. Scopes, types and callees stay the same, and so do the variables of all other scopes; the
variables of that scope have their new names. A variable is looked for under its new name exactly if
it is to be found in that scope, so that each use is resolved to the scope it was resolved to
before: no other scope has the new names, and the scope has none of the old ones.

## Main results

* `ScopeTree.Renamed.resolve`: uses are resolved to the same scopes.
* `Names.Renamed.step`: what one occurrence does under its new name.
* `Names.Renamed.foldl`: what a run does.
* `Names.knowsVar_foldl`: the names that a run registers in a scope.
-/

namespace ShaderSource

open List Names ScopeTree Vocabulary

/-! ### Registries with other keys -/

namespace Registry

variable {α : Type} {f : String → String} {r : Registry String α} {x : String}

/-- The registry with the keys exchanged. -/
def mapKeys (f : String → String) (r : Registry String α) : Registry String α :=
  r.map fun e => (f e.1, e.2)

@[simp] theorem mapKeys_id (r : Registry String α) : r.mapKeys id = r :=
  map_id r

/-- No other key gets the new name of this one. -/
def Apart (f : String → String) (r : Registry String α) (x : String) : Prop :=
  ∀ k ∈ r.map Prod.fst, f k = f x → k = x

theorem Apart.cons {e : String × α} (h : Registry.Apart f (e :: r) x) :
    (f e.1 = f x ↔ e.1 = x) ∧ r.Apart f x :=
  ⟨⟨h e.1 mem_cons_self, fun heq => by rw [heq]⟩, fun k hk => h k (mem_cons_of_mem _ hk)⟩

theorem get?_mapKeys (h : r.Apart f x) : (r.mapKeys f).get? (f x) = r.get? x := by
  induction r with
  | nil => rfl
  | cons e r ih =>
    obtain ⟨hk, hr⟩ := h.cons
    simp only [mapKeys, map_cons, get?, hk]
    split
    · rfl
    · exact ih hr

theorem mapKeys_insert (h : r.Apart f x) (a : α) :
    (r.insert x a).mapKeys f = (r.mapKeys f).insert (f x) a := by
  induction r with
  | nil => rfl
  | cons e r ih =>
    obtain ⟨hk, hr⟩ := h.cons
    simp only [mapKeys, map_cons, insert, hk] at ih ⊢
    split
    · rfl
    · rw [map_cons, ih hr]

theorem apart_id (r : Registry String α) (x : String) : r.Apart id x :=
  fun _ _ h => h

theorem keys_mapKeys (f : String → String) (r : Registry String α) :
    (r.mapKeys f).map Prod.fst = (r.map Prod.fst).map f := by
  simp [mapKeys, Function.comp_def]

theorem keys_insert (r : Registry String α) (a : α) {k : String} :
    k ∈ (r.insert x a).map Prod.fst ↔ k ∈ r.map Prod.fst ∨ k = x := by
  rw [← not_iff_not, ← get?_eq_none_iff, get?_insert, not_or, ← get?_eq_none_iff]
  by_cases hk : x = k
  · simp [hk]
  · simp [hk, Ne.symm hk]

theorem isSome_get?_iff {k : String} : (r.get? k).isSome = true ↔ k ∈ r.map Prod.fst := by
  rw [← not_iff_not, ← get?_eq_none_iff]
  simp

end Registry

/-! ### Scopes -/

/-- The same scope, but for the names of its variables. -/
structure Scope.Renamed (f : String → String) (s s' : Scope) : Prop where
  parent : s'.parent = s.parent
  types : s'.types = s.types
  vars : s'.vars = s.vars.mapKeys f

/-- The same scopes, but for the names of the variables of one of them. -/
structure ScopeTree.Renamed (f : String → String) (i : ScopeId) (t t' : ScopeTree) : Prop where
  size : t'.size = t.size
  scopes : ∀ j s, t.get? j = some s →
    ∃ s', t'.get? j = some s' ∧ s.Renamed (if j = i then f else id) s'

/-- A scope registers a variable. -/
def ScopeTree.KnowsVar (t : ScopeTree) (j : ScopeId) (x : String) : Prop :=
  ∃ s, t.get? j = some s ∧ x ∈ s.vars.map Prod.fst

/-- Whether a scope has an entry of a name. -/
def ScopeTree.has (t : ScopeTree) (c : NameClass) (x : String) (j : ScopeId) : Bool :=
  ((t.get? j).bind fun s => (s.entries c).get? x).isSome

namespace ScopeTree

variable {f : String → String} {i j : ScopeId} {t t' : ScopeTree} {x : String}

theorem has_var : t.has .var x j = true ↔ t.KnowsVar j x := by
  unfold has KnowsVar
  cases hs : t.get? j with
  | none => simp
  | some s => simp [Scope.entries, Registry.isSome_get?_iff]

theorem modify_id (t : ScopeTree) (j : ScopeId) : t.modify j id = t := by
  rw [modify, List.modify_id]

/-- A use is resolved to the first scope around it that has the name. -/
theorem Valid.resolve_eq (h : t.Valid) (c : NameClass) (i : ScopeId) (x : String) :
    t.resolve c i x = (((t.ancestors i).map Scope.id).find? (t.has c x)).getD i := by
  have hfind : ∀ l : List Scope, (∀ s ∈ l, s ∈ t.scopes) →
      (l.findSome? fun s => ((s.entries c).get? x).map fun e => (s, e)).map (fun e => e.1.id) =
        (l.map Scope.id).find? (t.has c x) := by
    intro l hl
    induction l with
    | nil => rfl
    | cons s l ih =>
      rw [forall_mem_cons] at hl
      have hhas : t.has c x s.id = ((s.entries c).get? x).isSome := by
        rw [has, h.get?_of_mem hl.1]
        rfl
      rw [findSome?_cons, map_cons, find?_cons, hhas]
      cases (s.entries c).get? x with
      | none => exact ih hl.2
      | some e => rfl
  rw [resolve, lookup, hfind (t.ancestors i) fun s hs => mem_chain hs]

namespace Renamed

variable (h : t.Renamed f i t')

include h

theorem get?_none (hj : t.get? j = none) : t'.get? j = none := by
  cases hj' : t'.get? j with
  | none => rfl
  | some s' =>
    obtain ⟨s, hs⟩ := exists_get?_of_lt (h.size ▸ lt_size_of_get? hj')
    rw [hj] at hs
    cases hs

theorem parallel : t.Parallel t' where
  size := h.size
  parents j := by
    cases hs : t.get? j with
    | none => rw [h.get?_none hs]
    | some s =>
      obtain ⟨s', hs', hrenamed⟩ := h.scopes j s hs
      simp [hs', hrenamed.parent]
  types j x := by
    cases hs : t.get? j with
    | none => simp [hasType, hs, h.get?_none hs]
    | some s =>
      obtain ⟨s', hs', hrenamed⟩ := h.scopes j s hs
      simp [hasType, hs, hs', hrenamed.types]

/-- Changing a scope in both. -/
theorem modify {g g' : Scope → Scope} (j : ScopeId)
    (hg : ∀ s s', t.get? j = some s → s.Renamed (if j = i then f else id) s' →
      (g s).Renamed (if j = i then f else id) (g' s')) :
    (t.modify j g).Renamed f i (t'.modify j g') := by
  refine ⟨by rw [size_modify, size_modify, h.size], fun k s hs => ?_⟩
  rw [get?_modify] at hs ⊢
  obtain ⟨s₀, hs₀, rfl⟩ := Option.map_eq_some_iff.mp hs
  obtain ⟨s', hs', hrenamed⟩ := h.scopes k s₀ hs₀
  refine ⟨_, by rw [hs']; rfl, ?_⟩
  by_cases hk : j = k
  · subst hk
    simpa using hg s₀ s' hs₀ hrenamed
  · simpa [hk] using hrenamed

/-- Functions do not matter. -/
theorem setOverloads_left (name : String) (os : Overloads) :
    (t.setOverloads name os).Renamed f i t' := by
  have hboth : (t.setOverloads name os).Renamed f i (t'.modify 0 id) :=
    h.modify 0 fun s s' _ hs => ⟨hs.parent, hs.types, hs.vars⟩
  rwa [modify_id] at hboth

theorem setOverloads_right (name : String) (os : Overloads) :
    t.Renamed f i (t'.setOverloads name os) := by
  have hboth : (t.modify 0 id).Renamed f i (t'.setOverloads name os) :=
    h.modify 0 fun s s' _ hs => ⟨hs.parent, hs.types, hs.vars⟩
  rwa [modify_id] at hboth

theorem recordType (j : ScopeId) (x : String) (g : Entry → Entry) :
    (t.record .type j x g).Renamed f i (t'.record .type j x g) := by
  refine h.modify j fun s s' _ hs => ⟨hs.parent, ?_, hs.vars⟩
  simp [Scope.setEntries, Scope.entries, hs.types]

/-- A variable is registered under its new name. -/
theorem recordVar {j : ScopeId} {x : String}
    (hapart : ∀ s, t.get? j = some s → s.vars.Apart (if j = i then f else id) x)
    (g : Entry → Entry) :
    (t.record .var j x g).Renamed f i (t'.record .var j ((if j = i then f else id) x) g) := by
  refine h.modify j fun s s' hget hs => ⟨hs.parent, hs.types, ?_⟩
  simp only [Scope.setEntries, Scope.entries]
  rw [hs.vars, Registry.mapKeys_insert (hapart s hget), Registry.get?_mapKeys (hapart s hget)]

theorem push (j : ScopeId) (name name' : String) (span span' : Option Span) :
    (t.push j name span).1.Renamed f i (t'.push j name' span').1 := by
  refine ⟨by simpa [ScopeTree.push, ScopeTree.size] using h.size, fun k s hs => ?_⟩
  rw [get?_push] at hs ⊢
  rw [h.size]
  split at hs
  · obtain rfl := Option.some.inj hs
    rename_i hk
    exact ⟨_, if_pos hk, rfl, rfl, rfl⟩
  · rename_i hk
    obtain ⟨s', hs', hrenamed⟩ := h.scopes k s hs
    exact ⟨s', by rw [if_neg hk, hs'], hrenamed⟩

theorem has_type (x : String) (j : ScopeId) : t'.has .type x j = t.has .type x j :=
  h.parallel.types j x

/-- What is registered with new names. -/
theorem registers : t'.KnowsVar j x ↔ ∃ k, t.KnowsVar j k ∧ (if j = i then f else id) k = x := by
  cases hs : t.get? j with
  | none => simp [KnowsVar, hs, h.get?_none hs]
  | some s =>
    obtain ⟨s', hs', hrenamed⟩ := h.scopes j s hs
    simp only [KnowsVar, hs, hs', hrenamed.vars, Option.some.injEq, exists_eq_left',
      Registry.keys_mapKeys, mem_map (f := if j = i then f else id)]

theorem chain_ids (ht : t.Valid) (ht' : t'.Valid) (n : Nat) (j : ScopeId) :
    (t'.chain n j).map Scope.id = (t.chain n j).map Scope.id := by
  induction n generalizing j with
  | zero => rfl
  | succ n ih =>
    cases hs : t.get? j with
    | none => simp [chain, hs, h.get?_none hs]
    | some s =>
      obtain ⟨s', hs', hrenamed⟩ := h.scopes j s hs
      simp only [chain, hs, hs', hrenamed.parent]
      cases s.parent with
      | none => simp [ht.ids hs, ht'.ids hs']
      | some p => simp [ht.ids hs, ht'.ids hs', ih]

theorem ancestors_ids (ht : t.Valid) (ht' : t'.Valid) (j : ScopeId) :
    (t'.ancestors j).map Scope.id = (t.ancestors j).map Scope.id := by
  rw [ancestors, ancestors, h.size, h.chain_ids ht ht']

theorem resolveType (ht : t.Valid) (ht' : t'.Valid) (j : ScopeId) (x : String) :
    t'.resolve .type j x = t.resolve .type j x := by
  rw [ht.resolve_eq, ht'.resolve_eq, h.ancestors_ids ht ht', funext (h.has_type x)]

end Renamed

/-- Looking for something that holds less often, but where it is to be found. -/
theorem find?_eq_of_found {P P' : ScopeId → Bool} {l : List ScopeId}
    (hless : ∀ a ∈ l, P' a = true → P a = true)
    (hfound : ∀ a, l.find? P = some a → P' a = true) : l.find? P' = l.find? P := by
  induction l with
  | nil => rfl
  | cons a l ih =>
    rw [forall_mem_cons] at hless
    rw [find?_cons, find?_cons]
    cases ha : P a with
    | true =>
      rw [hfound a (by rw [find?_cons, ha])]
    | false =>
      have ha' : P' a = false := by
        cases ha' : P' a with
        | false => rfl
        | true => rw [hless.1 ha'] at ha; cases ha
      rw [ha']
      exact ih hless.2 fun b hb => hfound b (by rw [find?_cons, ha]; exact hb)

/-- A name `x` that belongs into the scope `j` is given as `x'`: it is the new name if the variables
of the scope have new ones, and neither is taken for another name. -/
structure Gives (f : String → String) (i : ScopeId) (t : ScopeTree) (j : ScopeId) (x x' : String) :
    Prop where
  name : x' = (if j = i then f else id) x
  apart : j = i → ∀ k, t.KnowsVar i k → f k = f x → k = x
  fresh : j = i → ∀ k, t.KnowsVar k (f x) → k = i
  other : j ≠ i → ∀ k, t.KnowsVar i k → f k ≠ x

namespace Gives

variable {x' : String} (hx : t.Gives f i j x x')

include hx

theorem apart_vars {s : Scope} (hs : t.get? j = some s) :
    s.vars.Apart (if j = i then f else id) x := by
  by_cases hj : j = i
  · subst hj
    rw [if_pos rfl]
    exact fun k hk => hx.apart rfl k ⟨s, hs, hk⟩
  · rw [if_neg hj]
    exact Registry.apart_id _ _

/-- Only where the old name is, the new one is to be found. -/
theorem registers_of (h : t.Renamed f i t') {k : ScopeId} (hk : t'.KnowsVar k x') :
    t.KnowsVar k x := by
  obtain ⟨y, hy, heq⟩ := h.registers.mp hk
  by_cases hj : j = i
  · rw [hx.name, if_pos hj] at heq
    by_cases hki : k = i
    · subst hki
      rw [if_pos rfl] at heq
      rwa [← hx.apart hj y hy heq]
    · rw [if_neg hki] at heq
      obtain rfl : y = f x := heq
      exact absurd (hx.fresh hj k hy) hki
  · rw [hx.name, if_neg hj] at heq
    by_cases hki : k = i
    · subst hki
      rw [if_pos rfl] at heq
      exact absurd heq (hx.other hj y hy)
    · rw [if_neg hki] at heq
      obtain rfl : y = x := heq
      exact hy

end Gives

/-- Uses are resolved to the same scopes. -/
theorem Renamed.resolve {x x' : String} {c : ScopeId} (h : t.Renamed f i t') (ht : t.Valid)
    (ht' : t'.Valid) (hx : t.Gives f i (t.resolve .var c x) x x') :
    t'.resolve .var c x' = t.resolve .var c x := by
  rw [ht'.resolve_eq, h.ancestors_ids ht ht']
  have hfind : ((t.ancestors c).map Scope.id).find? (t'.has .var x') =
      ((t.ancestors c).map Scope.id).find? (t.has .var x) := by
    refine find?_eq_of_found (fun k _ hk => ?_) fun k hk => ?_
    · exact has_var.mpr (hx.registers_of h (has_var.mp hk))
    · have hregisters := has_var.mp (find?_some hk)
      have hresolve : t.resolve .var c x = k := by rw [ht.resolve_eq, hk]; rfl
      refine has_var.mpr (h.registers.mpr ⟨x, hregisters, ?_⟩)
      rw [hx.name, hresolve]
  rw [hfind, ← ht.resolve_eq]

end ScopeTree

/-! ### Steps side by side -/

/-- The same is known, but for the names of the variables of one scope. -/
structure Names.Renamed (f : String → String) (i : ScopeId) (b b' : Names) : Prop where
  scopes : b.scopes.Renamed f i b'.scopes
  current : b'.current = b.current
  lastId : b'.lastId = b.lastId
  callees : b'.callees = b.callees

/-- The second occurrence is the first one under a new name, if it is of a variable that is
registered in the scope with new names. -/
inductive Names.Follows (f : String → String) (i : ScopeId) (b : Names) :
    Occurrence → Occurrence → Prop
  | enter {name name' span span'} : Follows f i b (.enter name span) (.enter name' span')
  | leave : Follows f i b .leave .leave
  | declareBuiltin {x site site'} : isBuiltinVariable x = true →
      Follows f i b (.declareVariable x site) (.declareVariable x site')
  | useBuiltin {x site site'} : isBuiltinVariable x = true →
      Follows f i b (.useVariable x site) (.useVariable x site')
  | declareVariable {x x' site site'} : site'.id = site.id →
      isBuiltinVariable x = false → isBuiltinVariable x' = false →
      b.scopes.Gives f i b.current x x' →
      Follows f i b (.declareVariable x site) (.declareVariable x' site')
  | useVariable {x x' site site'} : site'.id = site.id →
      isBuiltinVariable x = false → isBuiltinVariable x' = false →
      b.scopes.Gives f i (b.scopes.resolve .var b.current x) x x' →
      Follows f i b (.useVariable x site) (.useVariable x' site')
  | declareType {x site site'} : site'.id = site.id →
      Follows f i b (.declareType x site) (.declareType x site')
  | useType {x site site'} : site'.id = site.id →
      Follows f i b (.useType x site) (.useType x site')
  | declareFunction {x x' signature signature' site site'} :
      Follows f i b (.declareFunction x signature site) (.declareFunction x' signature' site')
  | defineFunction {x x' signature signature' site site'} :
      Follows f i b (.defineFunction x signature site) (.defineFunction x' signature' site')
  | call {x callee callee' arguments arguments' site site'} : callee'.id = callee.id →
      site'.id = site.id →
      Follows f i b (.call x callee arguments site) (.call x callee' arguments' site')

namespace Names

variable {f : String → String} {i : ScopeId} {b b' : Names}

theorem renamed_initial (f : String → String) (i : ScopeId) (span span' : Option Span)
    (last : NodeId) :
    (Binding.initial span last).names.Renamed f i (Binding.initial span' last).names := by
  refine ⟨⟨rfl, fun j s hs => ?_⟩, rfl, rfl, rfl⟩
  cases j with
  | zero =>
    cases hs
    exact ⟨Scope.global span', rfl, rfl, rfl, rfl⟩
  | succ j => cases hs

theorem Renamed.withScopes (h : b.Renamed f i b') {t t' : ScopeTree} (ht : t.Renamed f i t') :
    (b.withScopes t).Renamed f i (b'.withScopes t') :=
  ⟨ht, h.current, h.lastId, h.callees⟩

theorem Renamed.exchangeCallee (h : b.Renamed f i b') (site : NodeId) :
    (b.exchangeCallee site).Renamed f i (b'.exchangeCallee site) := by
  unfold Names.exchangeCallee
  rw [h.callees]
  split
  · exact h
  · exact ⟨h.scopes, h.current, congrArg (· + 1) h.lastId, by rw [h.lastId]⟩

/-- Functions do not matter. -/
theorem Renamed.functions (h : b.Renamed f i b') {t t' : ScopeTree}
    (ht : t = b.scopes ∨ ∃ name os, t = b.scopes.setOverloads name os)
    (ht' : t' = b'.scopes ∨ ∃ name os, t' = b'.scopes.setOverloads name os) :
    (b.withScopes t).Renamed f i (b'.withScopes t') := by
  refine h.withScopes ?_
  have hleft : t.Renamed f i b'.scopes := by
    rcases ht with rfl | ⟨name, os, rfl⟩
    · exact h.scopes
    · exact h.scopes.setOverloads_left name os
  rcases ht' with rfl | ⟨name, os, rfl⟩
  · exact hleft
  · exact hleft.setOverloads_right name os

/-- A call of a type refers to it, and any other call gets the same new callee. -/
theorem Renamed.call (h : b.Renamed f i b') (hb : b.Valid) (hb' : b'.Valid) (x : String)
    (callee : NodeId) (arguments arguments' : Nat) (site : NodeId) :
    (b.call x callee arguments site).Renamed f i (b'.call x callee arguments' site) := by
  have hknown : (b'.scopes.lookup .type b'.current x).isSome =
      (b.scopes.lookup .type b.current x).isSome := by
    rw [h.current]
    exact h.scopes.parallel.lookup _ _
  have hfunction : ∀ arguments : Nat, ∀ b : Names, ∃ t,
      (t = b.scopes ∨ ∃ name os, t = b.scopes.setOverloads name os) ∧
        (if (b.scopes.lookupFunction x).isSome || !Vocabulary.isBuiltinFunction x then
          (b.withScopes (b.scopes.callFunction x arguments site).1).exchangeCallee site
        else b.exchangeCallee site) = (b.withScopes t).exchangeCallee site := by
    intro arguments b
    split
    · obtain ⟨os, hos⟩ := b.scopes.register_eq_setOverloads (.call arguments) x site
      exact ⟨_, .inr ⟨x, os, hos⟩, rfl⟩
    · exact ⟨b.scopes, .inl rfl, rfl⟩
  unfold Names.call
  rw [hknown]
  split
  · rw [hb.scopes.use_eq, hb'.scopes.use_eq, h.current, h.callees,
      h.scopes.resolveType hb.scopes hb'.scopes]
    exact h.withScopes (h.scopes.recordType _ _ _)
  · obtain ⟨t, ht, heq⟩ := hfunction arguments b
    obtain ⟨t', ht', heq'⟩ := hfunction arguments' b'
    rw [heq, heq']
    exact (h.functions ht ht').exchangeCallee site

/-- What one occurrence does under its new name. -/
theorem Renamed.step (h : b.Renamed f i b') (hb : b.Valid) (hb' : b'.Valid) {o o' : Occurrence}
    (ho : b.Follows f i o o') : (b.step o).Renamed f i (b'.step o') := by
  cases ho with
  | enter =>
    simp only [Names.step]
    rw [h.current]
    exact ⟨h.scopes.push _ _ _ _ _, h.scopes.size, h.lastId, h.callees⟩
  | leave =>
    refine ⟨h.scopes, ?_, h.lastId, h.callees⟩
    simp only [Names.step, h.current]
    rw [h.scopes.parallel.around]
  | declareBuiltin hbuiltin | useBuiltin hbuiltin =>
    simp only [Names.step, if_pos hbuiltin]
    exact h
  | declareVariable hsite hx hx' hgives =>
    simp only [Names.step]
    rw [if_neg (by simp [hx]), if_neg (by simp [hx']), declare_eq,
      declare_eq, h.current, hsite, hgives.name]
    exact h.withScopes (h.scopes.recordVar (fun s hs => hgives.apart_vars hs) _)
  | useVariable hsite hx hx' hgives =>
    simp only [Names.step]
    rw [if_neg (by simp [hx]), if_neg (by simp [hx']), hb.scopes.use_eq, hb'.scopes.use_eq,
      h.current, hsite, h.scopes.resolve hb.scopes hb'.scopes hgives, hgives.name]
    exact h.withScopes (h.scopes.recordVar (fun s hs => hgives.apart_vars hs) _)
  | declareType hsite =>
    simp only [Names.step]
    rw [declare_eq, declare_eq, h.current, hsite]
    exact h.withScopes (h.scopes.recordType _ _ _)
  | useType hsite =>
    simp only [Names.step]
    rw [hb.scopes.use_eq, hb'.scopes.use_eq, h.current, hsite,
      h.scopes.resolveType hb.scopes hb'.scopes]
    exact h.withScopes (h.scopes.recordType _ _ _)
  | declareFunction =>
    exact h.functions (.inr ⟨_, register_eq_setOverloads _ (.declare _) _ _⟩)
      (.inr ⟨_, register_eq_setOverloads _ (.declare _) _ _⟩)
  | defineFunction =>
    exact h.functions (.inr ⟨_, register_eq_setOverloads _ (.define _) _ _⟩)
      (.inr ⟨_, register_eq_setOverloads _ (.define _) _ _⟩)
  | call hcallee hsite =>
    simp only [Names.step]
    rw [hcallee, hsite]
    exact h.call hb hb' _ _ _ _ _

/-- What a run does under new names. -/
theorem Renamed.foldl {R : Occurrence → Occurrence → Prop} {os os' : List Occurrence}
    (hos : List.Forall₂ R os os') (h : b.Renamed f i b') (hb : b.Valid) (hb' : b'.Valid)
    (hstep : ∀ before o after o', os = before ++ o :: after → R o o' →
      (before.foldl Names.step b).Follows f i o o') :
    (os.foldl Names.step b).Renamed f i (os'.foldl Names.step b') := by
  induction hos generalizing b b' with
  | nil => exact h
  | @cons o o' os os' ho _ ih =>
    have hfollows := hstep [] o os o' rfl ho
    refine ih (h.step hb hb' hfollows) (hb.step o) (hb'.step o') ?_
    intro before o₁ after o₁' heq hR
    exact hstep (o :: before) o₁ after o₁' (by rw [heq, cons_append]) hR

end Names

/-! ### Registered variables -/

namespace ScopeTree

variable {t : ScopeTree} {j k : ScopeId} {x y : String}

theorem knowsVar_modify {g : Scope → Scope} (hg : ∀ s : Scope, (g s).vars = s.vars) :
    (t.modify k g).KnowsVar j x ↔ t.KnowsVar j x := by
  unfold KnowsVar
  rw [get?_modify]
  cases t.get? j with
  | none => simp
  | some s =>
    by_cases hk : k = j
    · simp [hk, hg]
    · simp [hk]

theorem knowsVar_record (hk : k < t.size) (g : Entry → Entry) :
    (t.record .var k y g).KnowsVar j x ↔ t.KnowsVar j x ∨ j = k ∧ x = y := by
  unfold KnowsVar record modifyEntries
  rw [get?_modify]
  by_cases hj : k = j
  · subst hj
    obtain ⟨s, hs⟩ := exists_get?_of_lt hk
    simp only [hs, Option.map_some, if_pos, Option.some.injEq, exists_eq_left', true_and]
    exact Registry.keys_insert s.vars _
  · simp [hj, Ne.symm hj]

theorem knowsVar_push (name : String) (span : Option Span) :
    (t.push k name span).1.KnowsVar j x ↔ t.KnowsVar j x := by
  unfold KnowsVar
  rw [get?_push]
  split
  · rename_i hj
    have hnone : t.get? j = none := by
      rw [hj]
      exact getElem?_eq_none (Nat.le_refl _)
    simp [hnone, Scope.fresh]
  · rfl

end ScopeTree

namespace Names

variable {b : Names} {j : ScopeId} {x : String}

/-- A step registers what its occurrence adds. -/
theorem knowsVar_step (hb : b.Valid) (o : Occurrence) :
    (b.step o).scopes.KnowsVar j x ↔
      b.scopes.KnowsVar j x ∨ ∃ node, (j, x, node) ∈ b.added .vars o := by
  have htype : ∀ k y g, (b.scopes.record .type k y g).KnowsVar j x ↔ b.scopes.KnowsVar j x := by
    intro k y g
    refine knowsVar_modify fun s => ?_
    rfl
  by_cases hflat : o.isFlat = true
  · rw [added_eq, (b.scopes_step hflat).2]
    cases (b.effect o).act with
    | nothing => simp [perform, listed]
    | declare c name =>
      rw [perform, declare_eq]
      cases c with
      | var => simp [listed, NameClass.target, knowsVar_record hb.current]
      | type => simp [listed, NameClass.target, htype]
    | use c name =>
      rw [perform, hb.scopes.use_eq]
      cases c with
      | var =>
        simp [listed, NameClass.target,
          knowsVar_record (hb.scopes.resolve_lt hb.current name)]
      | type => simp [listed, NameClass.target, htype]
    | register r name =>
      obtain ⟨os, hos⟩ := b.scopes.register_eq_setOverloads r name (b.effect o).site.id
      have hregister : (b.scopes.setOverloads name os).KnowsVar j x ↔ b.scopes.KnowsVar j x := by
        refine knowsVar_modify fun s => ?_
        rfl
      simp [perform, hos, listed, hregister]
  · cases o with
    | enter name span => simp [step, added, knowsVar_push]
    | leave => simp [step, added]
    | _ => exact absurd rfl hflat

/-- What a run registers. -/
theorem knowsVar_foldl (hb : b.Valid) (os : List Occurrence) :
    (os.foldl step b).scopes.KnowsVar j x ↔
      b.scopes.KnowsVar j x ∨ ∃ node, (j, x, node) ∈ b.addedAll .vars os := by
  induction os generalizing b with
  | nil => simp [addedAll]
  | cons o os ih =>
    rw [foldl_cons, ih (hb.step o), knowsVar_step hb, addedAll, or_assoc]
    simp only [mem_append, exists_or]

end Names

end ShaderSource
