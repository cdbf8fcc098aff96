import ShaderSource.Proofs.Reference

/-!
# Programs as they are bound

What the scopes of a program list is what the occurrences of its tree add, one after the other. So
an occurrence of a variable, a type or a function is listed under its name, and a call is listed as
one of a type if its callee stays as it is, and as one of a function if its callee is exchanged,
unless the function is built in.

## Main results

* `Program.boundAs`: a program that was read is bound by the occurrences of its tree.
* `Program.BoundAs.listing`: what its scopes list.
* `Program.BoundAs.refers_variable`, `Program.BoundAs.refers_type`,
  `Program.BoundAs.refers_function`: occurrences are listed.
* `Program.BoundAs.refers_call`, `Program.BoundAs.refers_exchanged`: so are calls.
-/

namespace ShaderSource

open List Names Registry

variable {os : List Occurrence} {e : ScopeId × String × NodeId} {i v : NodeId} {name : String}
  {callee site : Site} {arguments : Nat} {target : RenameTarget}

/-! ### What a run adds -/

namespace Names

variable {b : Names} {target : RenameTarget}

/-- What a run adds is added by one of its steps. -/
theorem mem_addedAll : e ∈ b.addedAll target os ↔
      ∃ before o after, os = before ++ o :: after ∧
        e ∈ (before.foldl Names.step b).added target o := by
  induction os generalizing b with
  | nil => simp [addedAll]
  | cons o os ih =>
    rw [addedAll, mem_append, ih]
    constructor
    · rintro (h | ⟨before, o', after, rfl, h⟩)
      · exact ⟨[], o, os, rfl, h⟩
      · exact ⟨o :: before, o', after, rfl, h⟩
    · rintro ⟨before, o', after, heq, h⟩
      cases before with
      | nil =>
        obtain ⟨rfl, rfl⟩ := cons.inj heq
        exact .inl h
      | cons o'' before =>
        obtain ⟨rfl, rfl⟩ := cons.inj heq
        exact .inr ⟨before, o', after, rfl, h⟩

theorem foldl_callees_mono (os : List Occurrence) (h : b.callees.get? i = some v) :
    (os.foldl Names.step b).callees.get? i = some v := by
  induction os generalizing b with
  | nil => exact h
  | cons o os ih => exact ih (b.step_callees_mono o h)

/-- A call of a known type leaves the callees as they are. -/
theorem step_call_type (h : (b.scopes.lookup .type b.current name).isSome = true) :
    (b.step (.call name callee arguments site)).callees = b.callees := by
  simp only [step, call, if_pos h]
  rfl

/-- Any other call has its callee exchanged. -/
theorem step_call_function (h : ¬(b.scopes.lookup .type b.current name).isSome = true) :
    ∃ v, (b.step (.call name callee arguments site)).callees.get? site.id = some v := by
  simp only [step, call, if_neg h]
  split
  · exact exists_get?_exchangeCallee _ _
  · exact exists_get?_exchangeCallee _ _

/-- A callee is exchanged at a call for which no type is known. -/
theorem exists_exchange (h : (os.foldl Names.step b).callees.get? i = some v) :
    b.callees.get? i = some v ∨
      ∃ before name callee arguments site after,
        os = before ++ .call name callee arguments site :: after ∧ site.id = i ∧
          ¬((before.foldl Names.step b).scopes.lookup .type (before.foldl Names.step b).current
            name).isSome = true := by
  induction os generalizing b with
  | nil => exact .inl h
  | cons o os ih =>
    rcases ih h with hget | ⟨before, name, callee, arguments, site, after, rfl, hsite, hnone⟩
    · rcases b.step_callees o with ⟨hsame, -⟩ |
        ⟨name, callee, arguments, site, rfl, hfree, hinsert, -⟩
      · exact .inl (hsame ▸ hget)
      · by_cases hsite : site.id = i
        · refine .inr ⟨[], name, callee, arguments, site, os, rfl, hsite, fun htype => ?_⟩
          rw [step_call_type (b := b) htype, ← hsite, hfree] at hget
          cases hget
        · rw [hinsert, get?_insert, if_neg hsite] at hget
          exact .inl hget
    · exact .inr ⟨o :: before, name, callee, arguments, site, after, rfl, hsite, hnone⟩

end Names

/-! ### First declarations -/

/-- A first declaration is among the references. -/
def Entry.Settled (e : Entry) : Prop :=
  ∀ i ∈ e.declaration, i ∈ e.references

theorem Entry.settled_unknown : Entry.Settled ⟨none, []⟩ := by
  simp [Entry.Settled]

theorem Entry.Settled.declare {e : Entry} (h : e.Settled) (node : NodeId) :
    (e.declare node).Settled := by
  intro i hi
  obtain rfl : e.declaration.getD node = i := Option.some.inj hi
  cases hdeclaration : e.declaration with
  | none => simp [Entry.declare]
  | some j => exact mem_append_left _ (h j hdeclaration)

theorem Entry.Settled.use {e : Entry} (h : e.Settled) (node : NodeId) : (e.use node).Settled :=
  fun i hi => mem_append_left _ (h i hi)

/-- A first declaration is among the references. -/
def Overload.Settled (o : Overload) : Prop :=
  ∀ i ∈ o.declaration, i ∈ o.references

theorem Registration.settled_new (r : Registration) (node : NodeId) : (r.new node).Settled := by
  cases r <;> simp [Overload.Settled, Registration.new]

/-- A registration may declare the function first. -/
theorem Registration.settled_extend (r : Registration) {o : Overload} (h : o.Settled)
    (node : NodeId) : (r.extend node o).Settled := by
  have hdeclare : ∀ i ∈ (o.declare node).declaration, i ∈ o.references ++ [node] := by
    intro i hi
    obtain rfl : o.declaration.getD node = i := Option.some.inj hi
    cases hdeclaration : o.declaration with
    | none => simp
    | some j => exact mem_append_left _ (h j hdeclaration)
  intro i hi
  rw [r.references_extend]
  cases r with
  | declare s => exact hdeclare i hi
  | call n => exact mem_append_left _ (h i hi)
  | define s =>
    simp only [Registration.extend] at hi
    split at hi
    · exact mem_append_left _ (h i hi)
    · exact hdeclare i hi

/-- First declarations of the functions of a name are among their references. -/
def Overloads.Settled (os : Overloads) : Prop :=
  ∀ e ∈ os, e.2.Settled

theorem Overloads.Settled.insert {os : Overloads} (h : os.Settled) {o : Overload}
    (ho : o.Settled) (key : String) : Overloads.Settled (Registry.insert key o os) := by
  intro e he
  rcases mem_insert he with rfl | he
  · exact ho
  · exact h e he

theorem Overloads.Settled.registered {os os' : Overloads} (h : os.Settled) {r : Registration}
    {node : NodeId} (hregistered : os.Registered r node os') : os'.Settled := by
  cases hregistered with
  | called _ hget | redeclared _ hget =>
    exact h.insert (r.settled_extend (h _ (Registry.mem_of_get? hget)) node) _
  | @takenOver key o _ _ hget =>
    have herase : Overloads.Settled (Registry.erase key os) :=
      fun e he => h e (mem_erase he)
    have htaken : Overload.Settled { o with signature := r.signature } :=
      h _ (Registry.mem_of_get? hget)
    exact herase.insert (r.settled_extend htaken node) _
  | added => exact h.insert (r.settled_new node) _

/-- Names in a scope have one entry each, and first declarations are among the references there. -/
structure Scope.Settled (s : Scope) : Prop where
  unique : ∀ c, (s.entries c).Unique
  entries : ∀ c, ∀ e ∈ s.entries c, e.2.Settled
  functions : ∀ e ∈ s.functions, Overloads.Settled e.2

theorem Scope.settled_fresh (id : ScopeId) (name : String) (parent : Option ScopeId)
    (span : Option Span) : (Scope.fresh id name parent span).Settled where
  unique c := by cases c <;> exact unique_nil
  entries c e he := by cases c <;> cases he
  functions e he := by cases he

/-- First declarations are among the references. -/
def ScopeTree.Settled (t : ScopeTree) : Prop :=
  ∀ s ∈ t.scopes, s.Settled

namespace ScopeTree.Settled

variable {t : ScopeTree} (h : t.Settled)

include h

theorem modify {f : Scope → Scope} (hf : ∀ s, s.Settled → (f s).Settled) (j : ScopeId) :
    (t.modify j f).Settled := by
  intro s hs
  rcases mem_modify hs with hs | ⟨s₀, hget, rfl⟩
  · exact h s hs
  · exact hf s₀ (h s₀ (mem_of_get? hget))

theorem record {g : Entry → Entry} (hg : ∀ e : Entry, e.Settled → (g e).Settled) (c : NameClass)
    (j : ScopeId) (name : String) : (t.record c j name g).Settled := by
  refine h.modify (fun s hs => ⟨fun c' => ?_, fun c' e he => ?_, ?_⟩) j
  · by_cases hc : c' = c
    · rw [hc, entries_setEntries]
      exact (hs.unique c).insert _ _
    · have hsame := hs.unique c'
      cases c <;> cases c' <;> first | exact hsame | exact absurd rfl hc
  · by_cases hc : c' = c
    · subst hc
      rw [entries_setEntries] at he
      rcases mem_insert he with rfl | he
      · refine hg _ ?_
        cases hknown : (s.entries c').get? name with
        | none => exact Entry.settled_unknown
        | some known => exact hs.entries c' _ (Registry.mem_of_get? hknown)
      · exact hs.entries c' e he
    · refine hs.entries c' e ?_
      cases c <;> cases c' <;> first | exact he | exact absurd rfl hc
  · cases c <;> exact hs.functions

theorem overloads (name : String) : (t.overloads name).Settled := by
  unfold ScopeTree.overloads lookupFunction
  cases hget : t.root.functions.get? name with
  | none =>
    intro e he
    cases he
  | some os =>
    obtain ⟨scopes⟩ := t
    cases scopes with
    | nil => cases hget
    | cons s rest => exact (h s mem_cons_self).functions _ (Registry.mem_of_get? hget)

theorem setOverloads {os : Overloads} (hos : os.Settled) (name : String) :
    (t.setOverloads name os).Settled := by
  refine h.modify (f := fun s => { s with functions := s.functions.insert name os })
    (fun s hs => ⟨hs.unique, hs.entries, fun e he => ?_⟩) 0
  rcases mem_insert he with rfl | he
  · exact hos
  · exact hs.functions e he

end ScopeTree.Settled

namespace Names

variable {b : Names}

theorem settled_step (hb : b.Valid) (h : b.scopes.Settled) (o : Occurrence) :
    (b.step o).scopes.Settled := by
  by_cases hflat : o.isFlat = true
  · rw [(b.scopes_step hflat).2]
    cases (b.effect o).act with
    | nothing => exact h
    | declare c name =>
      rw [perform, ScopeTree.declare_eq]
      exact h.record (fun e he => he.declare _) c _ name
    | use c name =>
      rw [perform, hb.scopes.use_eq]
      exact h.record (fun e he => he.use _) c _ name
    | register r name =>
      obtain ⟨os, hos, heq⟩ := ScopeTree.register_eq r (hb.scopes.keyed name) (b.effect o).site.id
      rw [perform, heq]
      exact h.setOverloads ((h.overloads name).registered hos) name
  · cases o with
    | enter name span =>
      intro s hs
      rcases mem_append.mp hs with hs | hs
      · exact h s hs
      · obtain rfl := mem_singleton.mp hs
        exact Scope.settled_fresh _ _ _ _
    | leave => exact h
    | _ => exact absurd rfl hflat

theorem settled_foldl (hb : b.Valid) (h : b.scopes.Settled) (os : List Occurrence) :
    (os.foldl Names.step b).scopes.Settled := by
  induction os generalizing b with
  | nil => exact h
  | cons o os ih => exact ih (hb.step o) (settled_step hb h o)

theorem settled_initial (span : Option Span) (lastId : NodeId) :
    (Binding.initial span lastId).names.scopes.Settled := by
  intro s hs
  obtain rfl := mem_singleton.mp hs
  exact Scope.settled_fresh _ _ _ _

end Names

/-! ### What the occurrences of a program make known -/

/-- A program is bound by the occurrences of a tree that was read. -/
structure Program.BoundAs (p : Program) (tree : Node) (last : NodeId) (b : Names) : Prop
    extends p.ComesFrom tree last b where
  names : b = (tree.occurrences .plain).foldl Names.step (Binding.initial tree.span last).names
  read : tree.AllRead

theorem readTree_kind {start : Start} {text : String} {located : Bool} {source : Option String}
    {tree : Node} (htree : readTree start ⟨Lexemes.ofString text, located⟩ source = .ok tree) :
    (tree.number 0).1.kind = .program := by
  obtain ⟨ns, j, rfl, -⟩ := readTree_sound htree
  rw [Node.kind_number]
  rfl

theorem Program.readNumbered_of_readTree {text : String} {options : Options} {tree : Node}
    (htree : Program.readText text options = .ok tree) :
    Program.readNumbered text options = .ok (tree.number 0) := by
  rw [Program.readNumbered, htree]
  rfl

theorem Program.boundAs_of_ofTree {start : Start} {text : String} {located : Bool}
    {source : Option String} {tree : Node} {policy : Policy} {b : Binding}
    (htree : readTree start ⟨Lexemes.ofString text, located⟩ source = .ok tree)
    (hbind : Binding.ofTree policy (tree.number 0).1 (tree.number 0).2 = (.ok (), b)) :
    Program.BoundAs ⟨(tree.number 0).1.exchangeCallees b.callees, b.scopes, b.diagnostics⟩
      (tree.number 0).1 (tree.number 0).2 b.names where
  root := rfl
  scopes := rfl
  kind := readTree_kind htree
  fit := Node.number_allFit (readTree_allFit htree) 0
  ids := tree.number_consecutive 0
  sound := (Binding.ofTree_sound hbind).1
  names := (BindM.steps_names hbind).1
  read := (readTree_yields htree).2.number 0

theorem Program.boundAs {text : String} {options : Options} {p : Program}
    (h : Program.parse text options = .ok p) : ∃ tree last b, p.BoundAs tree last b := by
  obtain ⟨tree, b, htree, hbind, rfl⟩ := Program.parse_eq_ok h
  exact ⟨_, _, _, Program.boundAs_of_ofTree htree hbind⟩

namespace Program.BoundAs

variable {p : Program} {tree : Node} {last : NodeId} {b : Names} (h : p.BoundAs tree last b)

include h

theorem valid : p.scopes.Valid := by
  rw [h.scopes, h.names]
  exact ((valid_initial tree.span last).foldl _).scopes

theorem settled : p.scopes.Settled := by
  rw [h.scopes, h.names]
  exact settled_foldl (valid_initial tree.span last)
    (settled_initial tree.span last) _

/-- What the scopes list. -/
theorem listing (target : RenameTarget) :
    (p.scopes.listing target).Perm
      ((Binding.initial tree.span last).names.addedAll target (tree.occurrences .plain)) := by
  rw [h.scopes, h.names]
  have hlisting := (valid_initial tree.span last).listing_foldl (tree.occurrences .plain)
    target
  rwa [listing_initial, append_nil] at hlisting

/-- What one of the occurrences adds is listed. -/
theorem mem_listing {before after : List Occurrence} {o : Occurrence}
    (hos : tree.occurrences .plain = before ++ o :: after)
    (he : e ∈ (before.foldl Names.step (Binding.initial tree.span last).names).added target o) :
    e ∈ p.scopes.listing target :=
  (h.listing target).mem_iff.mpr (mem_addedAll.mpr ⟨before, o, after, hos, he⟩)

theorem refers_of_added {before after : List Occurrence} {o : Occurrence}
    {j : ScopeId} {x : String} (hos : tree.occurrences .plain = before ++ o :: after)
    (he : (before.foldl Names.step (Binding.initial tree.span last).names).added target o =
      [(j, x, i)]) : p.scopes.Refers target x i :=
  ScopeTree.refers_iff_listing.mpr ⟨j, h.mem_listing hos (he ▸ mem_singleton_self _)⟩

/-- What is listed for the outermost scope is in it. -/
theorem root_refers {x : String} (hmem : (0, x, i) ∈ p.scopes.listing target) :
    p.scopes.root.Refers target x i := by
  obtain ⟨s, hs, hmem⟩ := mem_flatMap.mp hmem
  obtain ⟨e, he, heq⟩ := mem_map.mp hmem
  obtain ⟨hid, rfl⟩ := Prod.mk.inj heq
  have hroot := h.valid.get?_of_mem hs
  rw [hid, ScopeTree.get?_zero h.valid.nonempty] at hroot
  obtain rfl := Option.some.inj hroot
  exact Scope.refers_iff_listing.mpr he

/-- Occurrences of variables are listed, names of built-in ones apart. -/
theorem refers_variable
    (ho : .declareVariable name site ∈ tree.occurrences .plain ∨
      .useVariable name site ∈ tree.occurrences .plain)
    (hname : Vocabulary.isBuiltinVariable name = false) : p.scopes.Refers .vars name site.id := by
  rcases ho with ho | ho
  all_goals
    obtain ⟨before, after, hos⟩ := append_of_mem ho
    exact h.refers_of_added hos (if_pos ⟨rfl, by simp [hname]⟩)

theorem refers_type
    (ho : .declareType name site ∈ tree.occurrences .plain ∨
      .useType name site ∈ tree.occurrences .plain) : p.scopes.Refers .types name site.id := by
  rcases ho with ho | ho
  all_goals
    obtain ⟨before, after, hos⟩ := append_of_mem ho
    exact h.refers_of_added hos rfl

theorem refers_function {signature : Signature}
    (ho : .declareFunction name signature site ∈ tree.occurrences .plain ∨
      .defineFunction name signature site ∈ tree.occurrences .plain) :
    p.scopes.root.Refers .functions name site.id := by
  rcases ho with ho | ho
  all_goals
    obtain ⟨before, after, hos⟩ := append_of_mem ho
    exact h.root_refers (h.mem_listing hos (by simp [added]))

/-- A call whose callee stays is one of a type. -/
theorem refers_call (ho : .call name callee arguments site ∈ tree.occurrences .plain)
    (hstays : b.callees.get? site.id = none) : p.scopes.Refers .types name callee.id := by
  obtain ⟨before, after, hos⟩ := append_of_mem ho
  generalize hb' : before.foldl step (Binding.initial tree.span last).names = b'
  have hfinal : b = after.foldl step (b'.step (.call name callee arguments site)) := by
    rw [h.names, hos, foldl_append, hb', foldl_cons]
  have htype : (b'.scopes.lookup .type b'.current name).isSome = true := by
    by_contra hnone
    obtain ⟨v, hv⟩ := step_call_function hnone
    rw [hfinal, foldl_callees_mono after hv] at hstays
    cases hstays
  have hfree : b'.callees.get? site.id = none := by
    cases hget : b'.callees.get? site.id with
    | none => rfl
    | some v =>
      rw [hfinal, foldl_callees_mono after (b'.step_callees_mono _ hget)] at hstays
      cases hstays
  refine h.refers_of_added (j := b'.scopes.resolve .type b'.current name) hos ?_
  rw [hb']
  simp [added, htype, hfree]

/-- A call whose callee is exchanged is one of a function. -/
theorem refers_exchanged (hget : b.callees.get? i = some v) : ∃ name callee arguments site,
      .call name callee arguments site ∈ tree.occurrences .plain ∧ site.id = i ∧
        (Vocabulary.isBuiltinFunction name = false → p.scopes.root.Refers .functions name i) := by
  rw [h.names] at hget
  rcases exists_exchange hget with hget |
    ⟨before, name, callee, arguments, site, after, hos, rfl, hnone⟩
  · cases hget
  · refine ⟨name, callee, arguments, site, by simp [hos], rfl, fun hname => ?_⟩
    refine h.root_refers (h.mem_listing hos ?_)
    simp only [added, if_neg hnone, hname]
    simp

end Program.BoundAs

end ShaderSource
