import ShaderSource.Proofs.Callees
import ShaderSource.Proofs.Exchange

/-!
# Binding renamed trees

A tree with other names has the same occurrences, but for the names. If the names of types are the
same and a call has another name only if it is not the call of a type under that name either, then
binding goes the same way: scopes open and end at the same places, the same types are known in
them, and the same calls get the same new callees.

## Main results

* `Node.Renames.occurrences`: the occurrences of a renamed tree.
* `Names.Parallel.step`: a step goes the same way.
* `Names.Parallel.foldl`: so does a run.
-/

namespace ShaderSource

open List Node ScopeTree

/-! ### Occurrences of renamed trees -/

/-- The second node is the first one with new names, up to spans. -/
def Node.Renames (names : Registry NodeId String) (n m : Node) : Prop :=
  m.bare = (n.relabel names).bare

/-- The texts of leaves stay if tokens keep theirs. -/
theorem Node.text_retoken {f : Token → Token} (hf : ∀ t, (f t).text = t.text) (n : Node) :
    (n.retoken f).text = n.text := by
  obtain ⟨k, i, s, ps⟩ := n
  rw [retoken_mk]
  rcases ps with _ | ⟨p, _ | ⟨q, ps⟩⟩
  · rfl
  · cases p <;> simp [Node.text, Node.leaf?, hf]
  · simp [Node.text, Node.leaf?]

namespace Node.Renames

variable {names : Registry NodeId String} {n m : Node} (h : n.Renames names m)

include h

theorem kind : m.kind = n.kind := by
  simpa using congrArg Node.kind h

theorem id : m.id = n.id := by
  simpa using congrArg Node.id h

theorem field (hfit : n.Fits) (i : Nat) :
    List.Forall₂ (Node.Renames names) (n.field i) (m.field i) := by
  have hfield := congrArg (Node.field i) h
  rw [field_retoken, field_retoken, hfit.field_relabel, map_map] at hfield
  exact (forall₂_of_map_eq hfield.symm).imp fun _ _ h => h.symm

theorem along (hfit : n.AllFit) (path : List Nat) :
    List.Forall₂ (Node.Renames names) (n.along path) (m.along path) := by
  have halong := congrArg (Node.along path) h
  rw [along_retoken, along_retoken, hfit.along_relabel, map_map] at halong
  exact (forall₂_of_map_eq halong.symm).imp fun _ _ h => h.symm

theorem plan (hfit : n.AllFit) (role : Role) : m.plan role = n.plan role := by
  have hcall : m.isPlainCall = n.isPlainCall := by
    rw [← isPlainCall_retoken (fun t => t), show m.retoken _ = _ from h,
      isPlainCall_retoken,
      hfit.isPlainCall_relabel]
  have hblock : m.isOpenBlock = n.isOpenBlock := by
    rw [← isOpenBlock_retoken (fun t => t), show m.retoken _ = _ from h,
      isOpenBlock_retoken,
      hfit.isOpenBlock_relabel]
  rw [Node.plan, Node.plan, hcall, hblock, h.kind]

theorem text (hfit : n.Fits) (hkind : n.kind.IsName) :
    m.text = (names.get? n.id).getD n.text := by
  obtain ⟨t, hleaf⟩ := hfit.eq_leaf hkind
  have hbare : ∀ k : Node, k.bare.text = k.text := text_retoken fun _ => rfl
  rw [← hbare, show m.bare = _ from h, hbare, hleaf,
    relabel_leaf hkind]
  rfl

end Node.Renames

/-- The second occurrence is the first one in a tree with new names. Of functions and scopes the
names may be any. -/
inductive Occurrence.Renames (names : Registry NodeId String) : Occurrence → Occurrence → Prop
  | enter {name name' span span'} : Renames names (.enter name span) (.enter name' span')
  | leave : Renames names .leave .leave
  | declareVariable {x site site'} : site'.id = site.id →
      Renames names (.declareVariable x site)
        (.declareVariable ((names.get? site.id).getD x) site')
  | useVariable {x site site'} : site'.id = site.id →
      Renames names (.useVariable x site) (.useVariable ((names.get? site.id).getD x) site')
  | declareType {x site site'} : site'.id = site.id →
      Renames names (.declareType x site) (.declareType ((names.get? site.id).getD x) site')
  | useType {x site site'} : site'.id = site.id →
      Renames names (.useType x site) (.useType ((names.get? site.id).getD x) site')
  | declareFunction {x x' signature signature' site site'} : site'.id = site.id →
      Renames names (.declareFunction x signature site) (.declareFunction x' signature' site')
  | defineFunction {x x' signature signature' site site'} : site'.id = site.id →
      Renames names (.defineFunction x signature site) (.defineFunction x' signature' site')
  | call {x callee callee' arguments arguments' site site'} : callee'.id = callee.id →
      site'.id = site.id →
      Renames names (.call x callee arguments site)
        (.call ((names.get? callee.id).getD x) callee' arguments' site')

section Moves

variable {names : Registry NodeId String} {n m : Node} {role : Role}

/-- What a leaf declares or uses has its new name. -/
theorem Node.Renames.mentions (h : n.Renames names m) (hfit : n.Fits) {c : NameClass}
    (hkind : n.kind = c.leafKind) :
    Occurrence.Renames names (c.declares n.text n.site) (c.declares m.text m.site) ∧
      Occurrence.Renames names (c.uses n.text n.site) (c.uses m.text m.site) := by
  have hname : n.kind.IsName := by cases c <;> simp [hkind, NameClass.leafKind, Kind.IsName]
  have hid : m.site.id = n.site.id := h.id
  rw [h.text hfit hname]
  cases c with
  | var => exact ⟨.declareVariable hid, .useVariable hid⟩
  | type => exact ⟨.declareType hid, .useType hid⟩

/-- What a move makes of a renamed node. -/
theorem Node.Renames.perform (h : n.Renames names m) (hfit : n.AllFit) {move : Move}
    (hmove : move ∈ n.plan role)
    (hbelow : ∀ c ∈ n.children, ∀ k ∈ c.preorder, ∀ k' role', k.Renames names k' →
      k'.AllFit → List.Forall₂ (Occurrence.Renames names) (k.occurrences role')
        (k'.occurrences role')) (hfit' : m.AllFit) :
    List.Forall₂ (Occurrence.Renames names) (n.perform move) (m.perform move) := by
  cases move with
  | visit path role' =>
    have halong := h.along hfit path
    have hmem : ∀ k ∈ n.along path, ∃ c ∈ n.children, k ∈ c.preorder :=
      fun k hk => below_of_visit hmove hk
    have hmem' : ∀ k ∈ m.along path, k.AllFit := fun k hk => hfit'.below (mem_along hk)
    rw [Node.perform, Node.perform]
    generalize n.along path = ks at halong hmem
    generalize m.along path = ks' at halong hmem'
    induction halong with
    | nil => exact .nil
    | @cons k k' ks ks' hk _ ih =>
      rw [forall_mem_cons] at hmem hmem'
      obtain ⟨⟨c, hc, hkc⟩, hmem⟩ := hmem
      rw [flatMap_cons, flatMap_cons]
      exact rel_append (hbelow c hc k hkc k' role' hk hmem'.1) (ih hmem hmem'.2)
  | declare c path =>
    rw [Node.perform, Node.perform, forall₂_map_left_iff, forall₂_map_right_iff]
    refine ((forall₂_and_left _ _).mpr ⟨fun _ hk => hk, h.along hfit path⟩).imp ?_
    rintro k k' ⟨hk, hrenames⟩
    exact (hrenames.mentions (hfit.below (mem_along hk)).fits
      (hfit.kind_declared hmove hk).1).1
  | use c =>
    exact .cons (h.mentions hfit.fits (plan_use hmove)).2 .nil
  | call =>
    have hplain := call_mem_plan.mp hmove
    rw [Node.perform, Node.perform]
    refine rel_flatMap
      (((forall₂_and_left _ _).mpr ⟨fun _ hk => hk, h.field hfit.fits 0⟩)) ?_
    rintro callee callee' ⟨hcallee, hrenames⟩
    have hcfit := hfit.child (mem_children_iff.mpr ⟨0, hcallee⟩)
    rw [forall₂_map_left_iff, forall₂_map_right_iff]
    refine ((forall₂_and_left _ _).mpr
      ⟨fun _ hk => hk, hrenames.field hcfit.fits 0⟩).imp ?_
    rintro name name' ⟨hname, hrenames'⟩
    have hnfit := (hcfit.child (mem_children_iff.mpr ⟨0, hname⟩)).fits
    have hkind : name.kind = .typeName := kind_calleeName hplain
      (mem_flatMap.mpr ⟨callee, hcallee, by simpa [Node.along] using hname⟩)
    rw [hrenames'.text hnfit (.inr hkind)]
    exact .call hrenames'.id h.id
  | function path =>
    rw [Node.perform, Node.perform]
    refine rel_flatMap (h.along hfit path) fun k k' _ => ?_
    refine .cons ?_ (.cons .enter .nil)
    rw [Node.functionOccurrence, Node.functionOccurrence, h.kind]
    split
    · exact .defineFunction h.id
    · exact .declareFunction h.id
  | enter name => exact .cons .enter .nil
  | leave => exact .cons .leave .nil

/-- **The occurrences of a renamed tree** are those of the tree, with other names. -/
theorem Node.Renames.occurrences (h : n.Renames names m) (hfit : n.AllFit) (hfit' : m.AllFit)
    (role : Role) :
    List.Forall₂ (Occurrence.Renames names) (n.occurrences role) (m.occurrences role) := by
  induction n using strongInduction generalizing m role with
  | h n ih =>
    rw [hfit.occurrences_eq, hfit'.occurrences_eq, h.plan hfit]
    have hmoves : ∀ move ∈ n.plan role,
        List.Forall₂ (Occurrence.Renames names) (n.perform move) (m.perform move) :=
      fun move hmove => h.perform hfit hmove (fun c hc k hk k' role' hrenames hk' =>
        ih c hc k hk hrenames (hfit.below (mem_preorder_of_mem_child hc hk)) hk' role') hfit'
    generalize n.plan role = moves at hmoves
    induction moves with
    | nil => exact .nil
    | cons move moves ihmoves =>
      rw [forall_mem_cons] at hmoves
      rw [flatMap_cons, flatMap_cons]
      exact rel_append hmoves.1 (ihmoves hmoves.2)

end Moves

/-! ### Scopes with the same types -/

/-- A type of the name is registered in the scope. -/
def ScopeTree.hasType (t : ScopeTree) (i : ScopeId) (x : String) : Bool :=
  ((t.get? i).bind fun s => s.types.get? x).isSome

/-- The same scopes, with types of the same names. -/
structure ScopeTree.Parallel (t t' : ScopeTree) : Prop where
  size : t'.size = t.size
  parents : ∀ i, (t'.get? i).map Scope.parent = (t.get? i).map Scope.parent
  types : ∀ i x, t'.hasType i x = t.hasType i x

namespace ScopeTree

variable {t t' t'' : ScopeTree}

theorem Parallel.refl (t : ScopeTree) : t.Parallel t :=
  ⟨rfl, fun _ => rfl, fun _ _ => rfl⟩

theorem Parallel.symm (h : t.Parallel t') : t'.Parallel t :=
  ⟨h.size.symm, fun i => (h.parents i).symm, fun i x => (h.types i x).symm⟩

theorem Parallel.trans (h : t.Parallel t') (h' : t'.Parallel t'') : t.Parallel t'' :=
  ⟨h'.size.trans h.size, fun i => (h'.parents i).trans (h.parents i),
    fun i x => (h'.types i x).trans (h.types i x)⟩

/-- The same scope is around a scope. -/
theorem Parallel.around (h : t.Parallel t') (i : ScopeId) :
    (t'.get? i).bind Scope.parent = (t.get? i).bind Scope.parent := by
  have hbind : ∀ o : Option Scope, o.bind Scope.parent = (o.map Scope.parent).bind id := by
    intro o
    cases o <;> rfl
  rw [hbind, hbind, h.parents]

theorem Parallel.grows (h : t.Parallel t') : t.Grows t' := by
  refine ⟨h.size, fun i s hs => ?_⟩
  have hparent := h.parents i
  rw [hs] at hparent
  obtain ⟨s', hs', hparent⟩ := Option.map_eq_some_iff.mp hparent
  refine ⟨s', hs', hparent, fun x hx => ?_⟩
  simpa [hasType, hs, hs', hx] using h.types i x

theorem Parallel.lookup (h : t.Parallel t') (i : ScopeId) (x : String) :
    (t'.lookup .type i x).isSome = (t.lookup .type i x).isSome := by
  rw [Bool.eq_iff_iff]
  exact ⟨h.symm.grows.lookup, h.grows.lookup⟩

/-- Changing a scope without a change to its place and to the names of its types. -/
theorem parallel_modify {f : Scope → Scope} (hparent : ∀ s : Scope, (f s).parent = s.parent)
    (htypes : ∀ (s : Scope) x, ((f s).types.get? x).isSome = (s.types.get? x).isSome)
    (j : ScopeId) : t.Parallel (t.modify j f) := by
  refine ⟨size_modify t j f, fun i => ?_, fun i x => ?_⟩
  · rw [get?_modify]
    cases t.get? i with
    | none => simp
    | some s =>
      by_cases hj : j = i
      · simp [hj, hparent]
      · simp [hj]
  · rw [hasType, hasType, get?_modify]
    cases t.get? i with
    | none => simp
    | some s =>
      by_cases hj : j = i
      · simp [hj, htypes]
      · simp [hj]

/-- Functions do not matter. -/
theorem parallel_register (r : Registration) (name : String) (node : NodeId) :
    t.Parallel (t.register r name node) := by
  obtain ⟨os, heq⟩ := t.register_eq_setOverloads r name node
  rw [heq]
  refine parallel_modify (fun s => ?_) (fun s x => ?_) 0 <;> rfl

theorem parallel_modifyVars (j : ScopeId)
    (f : Registry String Entry → Registry String Entry) :
    t.Parallel (t.modifyEntries j .var f) := by
  refine parallel_modify (fun s => ?_) (fun s x => ?_) j <;> rfl

theorem parallel_declareVariable (j : ScopeId) (x : String) (node : NodeId) :
    t.Parallel (t.declare .var j x node).1 :=
  parallel_modifyVars j _

theorem parallel_useVariable (j : ScopeId) (x : String) (node : NodeId) :
    t.Parallel (t.use .var j x node).1 := by
  unfold use
  split
  · exact parallel_modifyVars _ _
  · exact parallel_modifyVars _ _

/-- The use of a known type registers no name. -/
theorem parallel_useType {j : ScopeId} {x : String} (h : (t.lookup .type j x).isSome = true)
    (node : NodeId) : t.Parallel (t.use .type j x node).1 := by
  obtain ⟨⟨s, e⟩, hlookup⟩ := Option.isSome_iff_exists.mp h
  have hkeep : ∀ j, t.Parallel
      (t.modifyEntries j .type (Registry.modify x fun e => e.use node)) := by
    intro j
    refine parallel_modify (fun s => ?_) (fun s y => ?_) j
    · rfl
    · change ((s.types.modify x _).get? y).isSome = _
      rw [Registry.get?_modify]
      split <;> simp
  unfold use
  rw [hlookup]
  exact hkeep s.id

/-- The same type is registered in both. -/
theorem Parallel.insertType (h : t.Parallel t') (j : ScopeId) (x : String) (e e' : Entry) :
    (t.modifyEntries j .type (Registry.insert x e)).Parallel
      (t'.modifyEntries j .type (Registry.insert x e')) := by
  have hget : ∀ (t : ScopeTree) (e : Entry) i,
      (t.modifyEntries j .type (Registry.insert x e)).get? i =
        (t.get? i).map fun s => if j = i then { s with types := s.types.insert x e } else s := by
    intro t e i
    rw [modifyEntries, get?_modify]
    rfl
  refine ⟨?_, fun i => ?_, fun i y => ?_⟩
  · rw [modifyEntries, modifyEntries, size_modify, size_modify, h.size]
  · have hsame : ∀ (t : ScopeTree) (e : Entry),
        ((t.modifyEntries j .type (Registry.insert x e)).get? i).map Scope.parent =
          (t.get? i).map Scope.parent := by
      intro t e
      rw [hget, Option.map_map]
      congr 1
      funext s
      simp only [Function.comp_apply]
      split <;> rfl
    rw [hsame, hsame, h.parents]
  · have hadded : ∀ (t : ScopeTree) (e : Entry),
        (t.modifyEntries j .type (Registry.insert x e)).hasType i y =
          (t.hasType i y || (t.get? i).isSome && decide (j = i) && decide (x = y)) := by
      intro t e
      rw [hasType, hget, hasType]
      cases t.get? i with
      | none => simp
      | some s =>
        by_cases hj : j = i
        · by_cases hx : x = y <;> simp [hj, hx, Registry.get?_insert]
        · simp [hj]
    have hsome : (t'.get? i).isSome = (t.get? i).isSome := by
      have hparent := congrArg Option.isSome (h.parents i)
      simpa using hparent
    rw [hadded, hadded, h.types, hsome]

theorem Parallel.push (h : t.Parallel t') (j : ScopeId) (name name' : String)
    (span span' : Option Span) :
    (t.push j name span).1.Parallel (t'.push j name' span').1 := by
  refine ⟨?_, fun i => ?_, fun i x => ?_⟩
  · simpa [ScopeTree.push, ScopeTree.size] using h.size
  · rw [get?_push, get?_push, h.size]
    split
    · rfl
    · exact h.parents i
  · rw [hasType, hasType, get?_push, get?_push, h.size]
    split
    · rfl
    · exact h.types i x

end ScopeTree

/-! ### Steps that go the same way -/

/-- The second occurrence does to scopes and callees what the first one does: the names of types are
the same, and the name of a call is the same or is not that of a type, and then the call is settled
if its old name was that of a type. -/
inductive Names.Admits (b : Names) : Occurrence → Occurrence → Prop
  | enter {name name' span span'} : Admits b (.enter name span) (.enter name' span')
  | leave : Admits b .leave .leave
  | declareVariable {x x' site site'} :
      Admits b (.declareVariable x site) (.declareVariable x' site')
  | useVariable {x x' site site'} : Admits b (.useVariable x site) (.useVariable x' site')
  | declareType {x site site'} : Admits b (.declareType x site) (.declareType x site')
  | useType {x site site'} : Admits b (.useType x site) (.useType x site')
  | declareFunction {x x' signature signature' site site'} :
      Admits b (.declareFunction x signature site) (.declareFunction x' signature' site')
  | defineFunction {x x' signature signature' site site'} :
      Admits b (.defineFunction x signature site) (.defineFunction x' signature' site')
  | call {x x' callee callee' arguments arguments' site site'} : site'.id = site.id →
      x' = x ∨ ¬b.KnowsType x' ∧
        (b.KnowsType x → ∃ v, b.callees.get? site.id = some v) →
      Admits b (.call x callee arguments site) (.call x' callee' arguments' site')

/-- The occurrence is of a variable or a function, but no call. -/
def Occurrence.isInert : Occurrence → Bool
  | .declareVariable _ _ => true
  | .useVariable _ _ => true
  | .declareFunction _ _ _ => true
  | .defineFunction _ _ _ => true
  | _ => false

/-- The occurrences of a run do the same, one after the other. -/
inductive Names.AdmitsAll : Names → List Occurrence → List Occurrence → Prop
  | nil {b} : AdmitsAll b [] []
  | cons {b o o' os os'} : b.Admits o o' → AdmitsAll (b.step o) os os' →
      AdmitsAll b (o :: os) (o' :: os')

/-- The same is known about scopes, types and callees. -/
structure Names.Parallel (b b' : Names) : Prop where
  scopes : b.scopes.Parallel b'.scopes
  current : b'.current = b.current
  lastId : b'.lastId = b.lastId
  callees : b'.callees = b.callees

namespace Names

variable {b b' : Names}

theorem Parallel.symm (h : b.Parallel b') : b'.Parallel b :=
  ⟨h.scopes.symm, h.current.symm, h.lastId.symm, h.callees.symm⟩

theorem Parallel.trans {b'' : Names} (h : b.Parallel b') (h' : b'.Parallel b'') : b.Parallel b'' :=
  ⟨h.scopes.trans h'.scopes, h'.current.trans h.current, h'.lastId.trans h.lastId,
    h'.callees.trans h.callees⟩

theorem Parallel.knowsType (h : b.Parallel b') (x : String) : b'.KnowsType x ↔ b.KnowsType x := by
  rw [KnowsType, KnowsType, h.current, h.scopes.lookup]

theorem parallel_withScopes {t : ScopeTree} (h : b.scopes.Parallel t) :
    b.Parallel (b.withScopes t) :=
  ⟨h, rfl, rfl, rfl⟩

theorem Parallel.exchangeCallee (h : b.Parallel b') (site : NodeId) :
    (b.exchangeCallee site).Parallel (b'.exchangeCallee site) := by
  unfold Names.exchangeCallee
  rw [h.callees]
  split
  · exact h
  · exact ⟨h.scopes, h.current, congrArg (· + 1) h.lastId, by rw [h.lastId]⟩

theorem parallel_initial (span span' : Option Span) (last : NodeId) :
    (Binding.initial span last).names.Parallel (Binding.initial span' last).names where
  scopes :=
    { size := rfl
      parents := fun i => by cases i <;> rfl
      types := fun i x => by cases i <;> rfl }
  current := rfl
  lastId := rfl
  callees := rfl

/-- Variables and functions do not matter. -/
theorem parallel_inert {o : Occurrence} (h : o.isInert = true) : b.Parallel (b.step o) := by
  have hrefl : b.Parallel b := ⟨.refl _, rfl, rfl, rfl⟩
  cases o with
  | declareVariable x site =>
    rw [Names.step]
    split
    · exact hrefl
    · exact parallel_withScopes (parallel_declareVariable _ _ _)
  | useVariable x site =>
    rw [Names.step]
    split
    · exact hrefl
    · exact parallel_withScopes (parallel_useVariable _ _ _)
  | declareFunction x signature site =>
    exact parallel_withScopes (parallel_register (.declare signature) _ _)
  | defineFunction x signature site =>
    exact parallel_withScopes (parallel_register (.define signature) _ _)
  | enter | leave | declareType | useType | call | malformed => cases h

/-- The call of a type changes nothing but what refers to the type. -/
theorem parallel_call_type {x : String} (h : b.KnowsType x) (callee : NodeId) (arguments : Nat)
    (site : NodeId) : b.Parallel (b.call x callee arguments site) := by
  unfold KnowsType at h
  unfold Names.call
  rw [if_pos h]
  exact parallel_withScopes (parallel_useType h _)

/-- Any other call gets a new callee. -/
theorem parallel_call_function {x : String} (h : ¬b.KnowsType x) (callee : NodeId)
    (arguments : Nat) (site : NodeId) :
    (b.exchangeCallee site).Parallel (b.call x callee arguments site) := by
  have hcall := parallel_register (t := b.scopes) (.call arguments) x site
  unfold KnowsType at h
  unfold Names.call
  rw [if_neg h]
  split
  · exact (parallel_withScopes hcall).exchangeCallee site
  · exact ⟨.refl _, rfl, rfl, rfl⟩

theorem parallel_exchanged {site v : NodeId} (h : b.callees.get? site = some v) :
    b.Parallel (b.exchangeCallee site) := by
  rcases b.exchangeCallee_cases site with ⟨-, heq⟩ | ⟨hnone, -⟩
  · rw [heq]
    exact ⟨.refl _, rfl, rfl, rfl⟩
  · rw [h] at hnone
    cases hnone

theorem Parallel.call (h : b.Parallel b') {x x' : String} {site : NodeId}
    (hname : x' = x ∨ ¬b.KnowsType x' ∧ (b.KnowsType x → ∃ v, b.callees.get? site = some v))
    (callee callee' : NodeId) (arguments arguments' : Nat) :
    (b.call x callee arguments site).Parallel (b'.call x' callee' arguments' site) := by
  have hfunctions : ¬b.KnowsType x → ¬b.KnowsType x' →
      (b.call x callee arguments site).Parallel (b'.call x' callee' arguments' site) := by
    intro hx hx'
    have hb := parallel_call_function hx callee arguments site
    have hb' := parallel_call_function (b := b') (fun hknown => hx' ((h.knowsType x').mp hknown))
      callee' arguments' site
    exact (hb.symm.trans (h.exchangeCallee site)).trans hb'
  by_cases hknown : b.KnowsType x
  · have hb := parallel_call_type hknown callee arguments site
    rcases hname with rfl | ⟨hnew, hsettled⟩
    · have hb' := parallel_call_type ((h.knowsType _).mpr hknown) callee' arguments' site
      exact (hb.symm.trans h).trans hb'
    · -- The call is settled, so that nothing is exchanged.
      obtain ⟨v, hget⟩ := hsettled hknown
      have hb' := parallel_call_function (b := b')
        (fun hknown => hnew ((h.knowsType x').mp hknown)) callee' arguments' site
      exact (hb.symm.trans h).trans ((parallel_exchanged (h.callees ▸ hget)).trans hb')
  · rcases hname with rfl | ⟨hnew, -⟩
    · exact hfunctions hknown hknown
    · exact hfunctions hknown hnew

/-- A step goes the same way. -/
theorem Parallel.step {o o' : Occurrence} (h : b.Parallel b') (ho : b.Admits o o') :
    (b.step o).Parallel (b'.step o') := by
  have hinert : o.isInert = true → o'.isInert = true → (b.step o).Parallel (b'.step o') :=
    fun ho ho' => ((parallel_inert ho).symm.trans h).trans (parallel_inert ho')
  cases ho with
  | enter =>
    refine ⟨?_, ?_, h.lastId, h.callees⟩
    · simp only [Names.step, h.current]
      exact h.scopes.push _ _ _ _ _
    · exact h.scopes.size
  | leave =>
    refine ⟨h.scopes, ?_, h.lastId, h.callees⟩
    simp only [Names.step, h.current]
    rw [h.scopes.around]
  | declareVariable | useVariable | declareFunction | defineFunction => exact hinert rfl rfl
  | @declareType x site site' =>
    refine ⟨?_, h.current, h.lastId, h.callees⟩
    simp only [Names.step, scopes_withScopes, h.current]
    exact h.scopes.insertType _ _ _ _
  | @useType x site site' =>
    by_cases hknown : b.KnowsType x
    · have hb : b.Parallel (b.step (.useType x site)) :=
        parallel_withScopes (parallel_useType hknown _)
      have hb' : b'.Parallel (b'.step (.useType x site')) :=
        parallel_withScopes (parallel_useType ((h.knowsType x).mpr hknown) _)
      exact (hb.symm.trans h).trans hb'
    · have hnew : ∀ {c : Names}, ¬c.KnowsType x → ∀ node, (c.scopes.use .type c.current x node).1 =
          c.scopes.modifyEntries c.current .type (Registry.insert x ⟨none, [node]⟩) := by
        intro c hc node
        rw [KnowsType, Option.not_isSome_iff_eq_none] at hc
        rw [use, hc]
      refine ⟨?_, h.current, h.lastId, h.callees⟩
      simp only [Names.step, scopes_withScopes]
      rw [hnew hknown, hnew (fun hc => hknown ((h.knowsType x).mp hc)), h.current]
      exact h.scopes.insertType _ _ _ _
  | @call x x' callee callee' arguments arguments' site site' hsite hname =>
    rw [Names.step, Names.step, hsite]
    exact h.call hname _ _ _ _

/-- **A run goes the same way.** -/
theorem Parallel.foldl {os os' : List Occurrence} (h : b.Parallel b') (hos : b.AdmitsAll os os') :
    (os.foldl Names.step b).Parallel (os'.foldl Names.step b') := by
  induction hos generalizing b' with
  | nil => exact h
  | cons ho _ ih => exact ih (h.step ho)

end Names

end ShaderSource
