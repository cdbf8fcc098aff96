import ShaderSource.Proofs.Consistency
import ShaderSource.Proofs.Prototype

/-!
# Overloads

The functions of one name are registered by prototypes, by definitions and by calls, in any order.
All three do one of three things: they add to a function that is known, they take over a function
that was only called so far, or they add a new function. Taking a function over gives it another
signature, and so another key.

What keeps the functions of a name apart is the number of their parameters: that of a function which
is only called is the number of arguments, and a call agrees with a function exactly if the numbers
are the same. So there is at most one function that waits for a declaration with a given number of
parameters, and it waits only as long as no function with that number is declared.

## Main results

* `Overloads.Sound.registered`: the functions of a name stay sound.
* `Program.overloads_consistent`: the functions of a program, and what each registration did.
-/

namespace ShaderSource

open List Node Overload Registration Registry Signature

variable {r : Registration} {os : Overloads} {root : Node}

/-! ### What is gained -/

/-- One function has one more node than before, or is new with that node, and the others stay. The
function may have another key. -/
def Overloads.Gains (node : NodeId) (os os' : Overloads) : Prop :=
  ∃ key key' o', Registry.get? key' os' = some o' ∧
    Registry.erase key' os' = Registry.erase key os ∧
    o'.references = ((Registry.get? key os).map Overload.references).getD [] ++ [node]

/-- What a registration finds among the functions of its name. -/
inductive Registration.Finds (r : Registration) (os : Overloads) : Option Overload → Prop
  /-- A function that agrees with a call. -/
  | called {key o} :
      r.isCall = true → Registry.get? key os = some o → o.signature.agrees r.signature = true →
      Finds r os (some o)
  /-- A function with the same key. -/
  | redeclared {o} :
      r.isCall = false → Registry.get? r.signature.key os = some o → Finds r os (some o)
  /-- A function that was only called. -/
  | takenOver {key o} :
      r.isCall = false → Registry.get? r.signature.key os = none →
      Registry.get? key os = some o → o.declaration = none →
      o.signature.agrees r.signature = true → Finds r os (some o)
  | nothing :
      Registry.get? r.signature.key os = none →
      (∀ e ∈ os, r.isCall = true ∨ e.2.declaration = none →
        e.2.signature.agrees r.signature = false) → Finds r os none

/-- A registration gives its node to what it finds. -/
theorem Overloads.Registered.finds {node : NodeId} {os' : Overloads} (h : os.Registered r node os')
    (hos : os.Keyed) :
    ∃ key key' o', r.Finds os (Registry.get? key os) ∧ Registry.get? key' os' = some o' ∧
      Registry.erase key' os' = Registry.erase key os ∧
      o'.references = ((Registry.get? key os).map Overload.references).getD [] ++ [node] := by
  have hself : ∀ (key : String) (o : Overload) (os : Overloads),
      Registry.get? key (Registry.insert key o os) = some o := by
    intro key o os
    rw [get?_insert, if_pos rfl]
  cases h with
  | @called key o hcall hget hagrees =>
    exact ⟨key, key, r.extend node o, hget ▸ .called hcall hget hagrees, hself _ _ _,
      erase_insert _ _ _, by simp [hget]⟩
  | @redeclared o hcall hget =>
    exact ⟨r.signature.key, r.signature.key, r.extend node o,
      hget ▸ .redeclared hcall hget, hself _ _ _, erase_insert _ _ _, by simp [hget]⟩
  | @takenOver key o hcall hnew hget hcalled hagrees =>
    refine ⟨key, r.signature.key, r.extend node { o with signature := r.signature },
      hget ▸ .takenOver hcall hnew hget hcalled hagrees, hself _ _ _, ?_, by simp [hget]⟩
    rw [erase_insert]
    refine erase_of_get?_eq_none ?_
    rw [get?_erase hos.unique, hnew, ite_self]
  | added hnew hothers =>
    exact ⟨r.signature.key, r.signature.key, r.new node, hnew ▸ .nothing hnew hothers,
      hself _ _ _, erase_insert _ _ _, by simp [hnew]⟩

/-- A registration adds its node to one function. -/
theorem Overloads.Registered.gains {node : NodeId} {os' : Overloads} (h : os.Registered r node os')
    (hos : os.Keyed) : os.Gains node os' := by
  obtain ⟨key, key', o', -, hgains⟩ := h.finds hos
  exact ⟨key, key', o', hgains⟩

/-! ### Single functions -/

/-- The kinds of the nodes that declare a function. -/
def Kind.declaring : List Kind :=
  [.functionDefinition, .functionPrototype]

/-- Whether the identity is that of a node of one of the kinds. -/
def Node.isAny (root : Node) (kinds : List Kind) (i : NodeId) : Bool :=
  root.preorder.any fun n => n.id == i && kinds.contains n.kind

/-- The kind of a node is found by its identity. -/
theorem Node.Distinct.isAny {n : Node} (h : root.Distinct) (hn : n ∈ root.preorder)
    (kinds : List Kind) : root.isAny kinds n.id = kinds.contains n.kind := by
  rw [Bool.eq_iff_iff, Node.isAny, any_eq_true]
  constructor
  · rintro ⟨m, hm, hmkind⟩
    rw [Bool.and_eq_true, beq_iff_eq] at hmkind
    rw [← h.eq_of_id hm hn hmkind.1]
    exact hmkind.2
  · intro hkind
    exact ⟨n, hn, by rw [beq_self_eq_true, Bool.true_and]; exact hkind⟩

/-- A registration is that of a node. -/
inductive Registration.At (n : Node) : Registration → Prop
  | declare {s : Signature} : n.kind = .functionPrototype → s.WellFormed → At n (.declare s)
  | define {s : Signature} : n.kind = .functionDefinition → s.WellFormed → At n (.define s)
  | call : n.kind = .functionCall → At n (.call (argumentCount (n.field 2)))

/-- What is registered of a function is what its nodes say. -/
structure Overload.Consistent (root : Node) (o : Overload) : Prop where
  /-- Its nodes are definitions, prototypes and calls. -/
  nodes : ∀ i ∈ o.references, root.isAny (.functionCall :: Kind.declaring) i = true
  /-- Its calls have as many arguments as it has parameters. -/
  calls : ∀ n ∈ root.preorder, n.id ∈ o.references → n.kind = .functionCall →
    argumentCount (n.field 2) = o.signature.arity
  /-- It is declared first at the first node that declares it. -/
  declaration : o.declaration = o.references.find? (root.isAny Kind.declaring)
  /-- It is defined if one of its nodes is a definition. -/
  defined : o.defined = o.references.any (root.isAny [.functionDefinition])

namespace Overload.Consistent

variable {root n : Node} {o : Overload} {r : Registration}

/-- What is defined is declared. -/
theorem declared_of_defined (h : o.Consistent root) (hdefined : o.defined = true) :
    o.declaration ≠ none := by
  rw [h.defined, any_eq_true] at hdefined
  obtain ⟨i, hi, hdefinition⟩ := hdefined
  rw [h.declaration]
  intro hnone
  have hnot := find?_eq_none.mp hnone i hi
  obtain ⟨m, hm, hkind⟩ := any_eq_true.mp hdefinition
  refine hnot (any_eq_true.mpr ⟨m, hm, ?_⟩)
  simp only [Bool.and_eq_true, contains_cons, contains_nil, Bool.or_false,
    beq_iff_eq] at hkind
  rw [hkind.1, hkind.2, beq_self_eq_true, Bool.true_and]
  rfl

/-- A call leaves the declaration alone, and all else sets it. -/
theorem declaration_extend (h : o.Consistent root) (r : Registration) (node : NodeId) :
    (r.isCall = true → (r.extend node o).declaration = o.declaration) ∧
      (r.isCall = false → (r.extend node o).declaration ≠ none) := by
  cases r with
  | declare s =>
    refine ⟨fun hcall => absurd hcall Bool.false_ne_true, fun _ => ?_⟩
    simp [extend, declare]
  | define s =>
    refine ⟨fun hcall => absurd hcall Bool.false_ne_true, fun _ => ?_⟩
    simp only [extend]
    split
    · rename_i hdefined
      exact h.declared_of_defined hdefined
    · simp [define, declare]
  | call k => exact ⟨fun _ => rfl, fun hcall => absurd hcall.symm Bool.false_ne_true⟩

/-- Another signature with as many parameters is consistent with the calls, too. -/
theorem withSignature (h : o.Consistent root) {s : Signature} (hs : s.arity = o.signature.arity) :
    Overload.Consistent root { o with signature := s } where
  nodes := h.nodes
  calls m hm hmem hkind := (h.calls m hm hmem hkind).trans hs.symm
  declaration := h.declaration
  defined := h.defined

variable (hroot : root.Distinct) (hn : n ∈ root.preorder) (hr : r.At n)

include hroot hn hr

/-- One more node does what it says. -/
theorem extend (h : o.Consistent root)
    (hcall : r.isCall = true → r.signature.arity = o.signature.arity) :
    (r.extend n.id o).Consistent root where
  nodes := by
    rw [references_extend, forall_mem_append, forall_mem_singleton,
      hroot.isAny hn]
    refine ⟨h.nodes, ?_⟩
    cases hr with
    | declare hkind _ | define hkind _ | call hkind =>
      rw [hkind]
      rfl
  calls := by
    intro m hm hmem hkind
    rw [references_extend, mem_append, mem_singleton] at hmem
    rw [signature_extend]
    rcases hmem with hmem | hid
    · exact h.calls m hm hmem hkind
    · obtain rfl := hroot.eq_of_id hm hn hid
      cases hr with
      | declare hkind' _ | define hkind' _ =>
        rw [hkind] at hkind'
        cases hkind'
      | call _ =>
        rw [← hcall rfl]
        exact (arity_call _).symm
  declaration := by
    rw [references_extend, find?_append, ← h.declaration, find?_singleton,
      hroot.isAny hn]
    cases hr with
    | declare hkind _ =>
      rw [hkind]
      cases hdeclaration : o.declaration <;>
        simp [extend, declare, hdeclaration, Kind.declaring]
    | define hkind _ =>
      rw [hkind]
      simp only [extend]
      split
      · rename_i hdefined
        obtain ⟨i, hi⟩ := Option.ne_none_iff_exists'.mp (h.declared_of_defined hdefined)
        simp [refer, hi]
      · cases hdeclaration : o.declaration <;>
          simp [define, declare, hdeclaration, Kind.declaring]
    | call hkind =>
      rw [hkind]
      simp [extend, refer, Kind.declaring]
  defined := by
    rw [references_extend, any_append, ← h.defined, any_cons, any_nil,
      Bool.or_false, hroot.isAny hn]
    cases hr with
    | declare hkind _ =>
      rw [hkind]
      simp [extend, declare, refer]
    | define hkind _ =>
      rw [hkind]
      simp only [extend]
      split
      · rename_i hdefined
        simp [refer, hdefined]
      · simp [define]
    | call hkind =>
      rw [hkind]
      simp [extend, refer]

end Overload.Consistent

/-- A new function is what its node says: it is one without nodes, with the node added. -/
theorem Registration.At.consistent_new {n : Node} (hr : r.At n) (hroot : root.Distinct)
    (hn : n ∈ root.preorder) : (r.new n.id).Consistent root := by
  have hnone : Consistent root ⟨r.signature, none, false, []⟩ :=
    ⟨by simp, by simp, rfl, rfl⟩
  rw [r.new_eq]
  exact hnone.extend hroot hn hr fun _ => rfl

/-! ### The functions of a name -/

/-- An insertion changes no other key. -/
theorem Registry.mem_insert_cases {κ α : Type} [DecidableEq κ] {r : Registry κ α} (hr : r.Unique)
    {k : κ} {a : α} {e : κ × α} (h : e ∈ r.insert k a) : e = (k, a) ∨ e ∈ r ∧ e.1 ≠ k := by
  rcases mem_insert h with heq | hmem
  · exact .inl heq
  · by_cases hk : e.1 = k
    · left
      have hget := get?_of_mem (hr.insert k a) h
      rw [hk, get?_insert, if_pos rfl] at hget
      exact Prod.ext hk (Option.some.inj hget).symm
    · exact .inr ⟨hmem, hk⟩

/-- A key that is erased is gone. -/
theorem Registry.ne_of_mem_erase {κ α : Type} [DecidableEq κ] {r : Registry κ α} (hr : r.Unique)
    {k : κ} {e : κ × α} (h : e ∈ r.erase k) : e.1 ≠ k := by
  intro hk
  have hget := get?_of_mem (hr.erase k) h
  rw [hk, get?_erase hr, if_pos rfl] at hget
  cases hget

/-- The functions of a name are each what their nodes say, and those that are only called have
other numbers of parameters than those that are declared. -/
structure Overloads.Sound (root : Node) (os : Overloads) : Prop where
  keyed : os.Keyed
  consistent : ∀ e ∈ os, e.2.Consistent root
  signatures : ∀ e ∈ os, e.2.signature.WellFormed
  called : ∀ e ∈ os, e.2.declaration = none → ∃ n, e.2.signature = Signature.call n
  apart : ∀ e ∈ os, ∀ e' ∈ os, e.2.declaration = none → e'.2.declaration ≠ none →
    e.2.signature.arity ≠ e'.2.signature.arity

namespace Overloads.Sound

variable {root n : Node} {os os' : Overloads} {r : Registration}

/-- The empty registry is sound. -/
theorem nil : Overloads.Sound root [] where
  keyed := keyed_nil
  consistent := by simp
  signatures := by simp
  called := by simp
  apart := by simp

/-- Among the functions that are only called there is one for each number of parameters. -/
theorem key_unique (h : os.Sound root) {e e' : String × Overload} (he : e ∈ os) (he' : e' ∈ os)
    (hcalled : e.2.declaration = none) (hcalled' : e'.2.declaration = none)
    (harity : e.2.signature.arity = e'.2.signature.arity) : e.1 = e'.1 := by
  obtain ⟨k, hk⟩ := h.called e he hcalled
  obtain ⟨k', hk'⟩ := h.called e' he' hcalled'
  rw [hk, hk', arity_call, arity_call] at harity
  rw [← h.keyed.keys e he, ← h.keyed.keys e' he', hk, hk', harity]

/-- One function is exchanged for another or added. -/
theorem replace (h : os.Sound root) (key : String) (o : Overload) (hkeyed : os'.Keyed)
    (hmem : ∀ e ∈ os', e.2 = o ∨ e ∈ os ∧ e.1 ≠ key) (hconsistent : o.Consistent root)
    (hsignature : o.signature.WellFormed)
    (hcalled : o.declaration = none → ∃ n, o.signature = Signature.call n)
    (hapart : ∀ e ∈ os, e.1 ≠ key →
      ¬(e.2.declaration = none ↔ o.declaration = none) → e.2.signature.arity ≠ o.signature.arity) :
    os'.Sound root where
  keyed := hkeyed
  consistent e he := by
    rcases hmem e he with heq | ⟨he, -⟩
    · rw [heq]
      exact hconsistent
    · exact h.consistent e he
  signatures e he := by
    rcases hmem e he with heq | ⟨he, -⟩
    · rw [heq]
      exact hsignature
    · exact h.signatures e he
  called e he := by
    rcases hmem e he with heq | ⟨he, -⟩
    · rw [heq]
      exact hcalled
    · exact h.called e he
  apart e he e' he' hnone hsome := by
    rcases hmem e he with heq | ⟨he, hkey⟩ <;> rcases hmem e' he' with heq' | ⟨he', hkey'⟩
    · rw [heq] at hnone
      rw [heq'] at hsome
      exact absurd hnone hsome
    · rw [heq] at hnone ⊢
      exact (hapart e' he' hkey' fun hiff => hsome (hiff.mpr hnone)).symm
    · rw [heq'] at hsome ⊢
      exact hapart e he hkey fun hiff => hsome (hiff.mp hnone)
    · exact h.apart e he e' he' hnone hsome

section Registered

variable (h : os.Sound root) (hroot : root.Distinct) (hn : n ∈ root.preorder) (hr : r.At n)

include h hroot hn hr

/-- A function that is known is called. -/
theorem registered_called (hcall : r.isCall = true) {key : String} {o : Overload}
    (hget : Registry.get? key os = some o) (hagrees : o.signature.agrees r.signature = true) :
    Overloads.Sound root (Registry.insert key (r.extend n.id o) os) := by
  have ho := mem_of_get? hget
  have hconsistent := h.consistent _ ho
  have hdeclaration := (hconsistent.declaration_extend r n.id).1 hcall
  have harity : r.signature.arity = o.signature.arity := by
    cases hr with
    | call _ =>
      rw [← (agrees_call_iff (h.signatures _ ho)).mp hagrees]
      exact arity_call _
    | _ => cases hcall
  refine h.replace key (r.extend n.id o) ?_ (fun e he => ?_)
    (hconsistent.extend hroot hn hr fun _ => harity) ?_ ?_ ?_
  · refine h.keyed.insert ?_
    rw [signature_extend, h.keyed.key_eq hget]
  · exact (mem_insert_cases h.keyed.unique he).imp_left fun heq => by rw [heq]
  · rw [signature_extend]
    exact h.signatures _ ho
  · rw [signature_extend, hdeclaration]
    exact h.called _ ho
  · intro e he _ hdiffers
    rw [hdeclaration] at hdiffers
    rw [signature_extend]
    by_cases hnone : o.declaration = none
    · have hsome : e.2.declaration ≠ none := fun hnone' => hdiffers (iff_of_true hnone' hnone)
      exact (h.apart _ ho e he hnone hsome).symm
    · have hnone' : e.2.declaration = none :=
        by_contra fun hsome => hdiffers (iff_of_false hsome hnone)
      exact h.apart e he _ ho hnone' hnone

/-- A known function is declared. If it was only called, it has the signature of the call. -/
theorem registered_redeclared (hcall : r.isCall = false) {o : Overload}
    (hget : Registry.get? r.signature.key os = some o) :
    Overloads.Sound root (Registry.insert r.signature.key (r.extend n.id o) os) := by
  have ho := mem_of_get? hget
  have hconsistent := h.consistent _ ho
  have hdeclaration := (hconsistent.declaration_extend r n.id).2 hcall
  refine h.replace r.signature.key (r.extend n.id o) ?_ (fun e he => ?_)
    (hconsistent.extend hroot hn hr fun htrue => ?_) ?_ (fun hnone => absurd hnone hdeclaration) ?_
  · refine h.keyed.insert ?_
    rw [signature_extend, h.keyed.key_eq hget]
  · exact (mem_insert_cases h.keyed.unique he).imp_left fun heq => by rw [heq]
  · rw [hcall] at htrue
    cases htrue
  · rw [signature_extend]
    exact h.signatures _ ho
  · intro e he hkey hdiffers
    have hnone : e.2.declaration = none :=
      by_contra fun hsome => hdiffers (iff_of_false hsome hdeclaration)
    rw [signature_extend]
    by_cases hcalled : o.declaration = none
    · exact fun harity => hkey (h.key_unique he ho hnone hcalled harity)
    · exact h.apart e he _ ho hnone hcalled

/-- A function that was only called is declared. -/
theorem registered_takenOver (hcall : r.isCall = false)
    {key : String} {o : Overload} (hget : Registry.get? key os = some o)
    (hcalled : o.declaration = none) (hagrees : o.signature.agrees r.signature = true) :
    Overloads.Sound root
      (Registry.insert r.signature.key (r.extend n.id { o with signature := r.signature })
        (Registry.erase key os)) := by
  have ho := mem_of_get? hget
  have hsignature : r.signature.WellFormed := by
    cases hr with
    | declare _ hs | define _ hs => exact hs
    | call _ => cases hcall
  have harity : r.signature.arity = o.signature.arity := by
    obtain ⟨k, hk⟩ := h.called _ ho hcalled
    dsimp only at hk
    rw [hk, agrees_comm, agrees_call_iff hsignature] at hagrees
    rw [hagrees, hk, arity_call]
  have hconsistent := (h.consistent _ ho).withSignature harity
  have hdeclaration := (hconsistent.declaration_extend r n.id).2 hcall
  refine h.replace key (r.extend n.id { o with signature := r.signature }) ?_
    (fun e he => ?_) (hconsistent.extend hroot hn hr fun _ => rfl) ?_
    (fun hnone => absurd hnone hdeclaration) ?_
  · refine (h.keyed.erase key).insert ?_
    rw [signature_extend]
  · rcases mem_insert he with heq | he
    · exact .inl (by rw [heq])
    · exact .inr ⟨mem_erase he, ne_of_mem_erase h.keyed.unique he⟩
  · rw [signature_extend]
    exact hsignature
  · intro e he hkey hdiffers
    have hnone : e.2.declaration = none :=
      by_contra fun hsome => hdiffers (iff_of_false hsome hdeclaration)
    rw [signature_extend]
    exact fun hsame => hkey (h.key_unique he ho hnone hcalled (hsame.trans harity))

/-- A function that was not known. -/
theorem registered_added
    (hothers : ∀ e ∈ os, r.isCall = true ∨ e.2.declaration = none →
      e.2.signature.agrees r.signature = false) :
    Overloads.Sound root (Registry.insert r.signature.key (r.new n.id) os) := by
  have hsignature : r.signature.WellFormed := by
    cases hr with
    | declare _ hs | define _ hs => exact hs
    | call _ => exact wellFormed_call _
  refine h.replace r.signature.key (r.new n.id)
    (h.keyed.insert (by rw [signature_new])) (fun e he => ?_)
    (hr.consistent_new hroot hn) (by rwa [signature_new]) ?_ ?_
  · exact (mem_insert_cases h.keyed.unique he).imp_left fun heq => by rw [heq]
  · cases hr with
    | declare _ _ | define _ _ => exact nofun
    | call _ => exact fun _ => ⟨_, rfl⟩
  · intro e he _ hdiffers harity
    rw [signature_new] at harity
    cases hr with
    | call _ =>
      have hagrees := hothers e he (.inl rfl)
      rw [Registration.signature, (agrees_call_iff (h.signatures e he)).mpr
        (harity.trans (arity_call _))] at hagrees
      cases hagrees
    | declare _ _ | define _ _ =>
      have hnone : e.2.declaration = none :=
        by_contra fun hsome => hdiffers (iff_of_false hsome nofun)
      obtain ⟨k, hk⟩ := h.called e he hnone
      have hagrees := hothers e he (.inr hnone)
      rw [hk, arity_call] at harity
      rw [hk, agrees_comm,
        (agrees_call_iff hsignature).mpr harity.symm] at hagrees
      cases hagrees

/-- The functions of a name stay sound. -/
theorem registered (hregistered : os.Registered r n.id os') : os'.Sound root := by
  cases hregistered with
  | called hcall hget hagrees => exact h.registered_called hroot hn hr hcall hget hagrees
  | redeclared hcall hget => exact h.registered_redeclared hroot hn hr hcall hget
  | takenOver hcall _ hget hcalled hagrees =>
    exact h.registered_takenOver hroot hn hr hcall hget hcalled hagrees
  | added _ hothers => exact h.registered_added hroot hn hr hothers

end Registered

end Overloads.Sound

/-! ### The functions of a program -/

namespace Names

variable {b : Names}

/-- A step changes the functions of one name by a registration, or none. -/
theorem overloads_step (b : Names) (o : Occurrence) :
    (∀ r name node, b.registration? o = some (r, name, node) →
      ∀ x, (b.step o).scopes.overloads x = (b.scopes.register r name node).overloads x) ∧
    (b.registration? o = none → ∀ x, (b.step o).scopes.overloads x = b.scopes.overloads x) := by
  obtain ⟨hsome, hnone⟩ := b.functions_step o
  refine ⟨fun r name node h x => ?_, fun h x => ?_⟩
  · exact congrArg (fun r => (Registry.get? x r).getD []) (hsome r name node h)
  · exact congrArg (fun r => (Registry.get? x r).getD []) (hnone h)

/-- The step registers what the occurrence says, and nothing else: one function of the name gains a
node, and those of other names stay. -/
structure Registers (b : Names) (o : Occurrence) : Prop where
  gains : ∀ r name node, b.registration? o = some (r, name, node) →
    (b.scopes.overloads name).Gains node ((b.step o).scopes.overloads name)
  others : ∀ r name node, b.registration? o = some (r, name, node) →
    ∀ x, x ≠ name → (b.step o).scopes.overloads x = b.scopes.overloads x
  stay : b.registration? o = none → ∀ x, (b.step o).scopes.overloads x = b.scopes.overloads x

/-- A step registers a function, or leaves them alone. -/
theorem Valid.registers (hb : b.Valid) (o : Occurrence) : b.Registers o := by
  obtain ⟨hsome, hnone⟩ := b.overloads_step o
  refine ⟨fun r name node h => ?_, fun r name node h x hx => ?_, hnone⟩
  · rw [hsome r name node h]
    exact (hb.scopes.registered r name node).1.gains (hb.scopes.keyed name)
  · rw [hsome r name node h]
    exact (hb.scopes.registered r name node).2 x hx

/-- An occurrence registers functions at nodes of the tree that it tells about. -/
def SpeaksOf (root : Node) (o : Occurrence) : Prop :=
  ∀ b r name node, Names.registration? b o = some (r, name, node) →
    ∃ n ∈ root.preorder, n.id = node ∧ r.At n

/-- A step keeps the functions of each name sound. -/
theorem sound_step (hroot : root.Distinct) (hb : b.Valid)
    (h : ∀ x, (b.scopes.overloads x).Sound root) {o : Occurrence} (ho : SpeaksOf root o)
    (x : String) : ((b.step o).scopes.overloads x).Sound root := by
  obtain ⟨hsome, hnone⟩ := b.overloads_step o
  cases hregistration : b.registration? o with
  | none =>
    rw [hnone hregistration]
    exact h x
  | some e =>
    obtain ⟨r, name, node⟩ := e
    obtain ⟨n, hn, rfl, hr⟩ := ho b r name node hregistration
    rw [hsome r name n.id hregistration]
    obtain ⟨hregistered, hothers⟩ := hb.scopes.registered r name n.id
    by_cases hx : x = name
    · subst hx
      exact (h x).registered hroot hn hr hregistered
    · rw [hothers x hx]
      exact h x

/-- A run keeps the functions of each name sound. -/
theorem sound_foldl (hroot : root.Distinct) (hb : b.Valid)
    (h : ∀ x, (b.scopes.overloads x).Sound root) {os : List Occurrence}
    (hos : ∀ o ∈ os, SpeaksOf root o) (x : String) :
    ((os.foldl Names.step b).scopes.overloads x).Sound root := by
  induction os generalizing b with
  | nil => exact h x
  | cons o os ih =>
    rw [forall_mem_cons] at hos
    exact ih (hb.step o) (fun x => sound_step hroot hb h hos.1 x) hos.2

end Names

section Exchange

variable (callees : Registry NodeId NodeId)

/-- Calls keep their names when callees are exchanged. -/
theorem Node.name?_exchangeCallees (n : Node) : (n.exchangeCallees callees).name? = n.name? := by
  have hleaf : n.kind ≠ .functionCall → (n.exchangeCallees callees).leaf? = n.leaf? := by
    intro hkind
    rw [exchangeCallees_of_kind callees hkind]
    obtain ⟨k, i, s, parts⟩ := n
    match parts with
    | [] => rfl
    | [p] => cases p <;> rfl
    | p :: q :: rest => cases p <;> rfl
  unfold name?
  rw [kind_exchangeCallees]
  split
  · rw [hleaf (by simp [*])]
  · rw [hleaf (by simp [*])]
  · rw [hleaf (by simp [*])]
  · rfl

/-- Calls keep their arguments when callees are exchanged. -/
theorem argumentCount_exchangeCallees (ns : List Node) :
    argumentCount (ns.map (exchangeCallees callees)) = argumentCount ns := by
  match ns with
  | [] => rfl
  | [n] => simp [argumentCount, name?_exchangeCallees]
  | n :: m :: rest => simp [argumentCount]

/-- Arguments stay what they are, up to callees in them. -/
theorem Node.arguments_exchangeCallees (n : Node) :
    (n.exchangeCallees callees).field 2 = (n.field 2).map (exchangeCallees callees) := by
  rcases n.exchangeCallees_cases callees with heq | ⟨id, span, callee, parts, fresh, rfl, hget, heq⟩
  · rw [heq, field_mapChildren]
  · rw [heq, field_mk, field_mk]
    match parts with
    | [] => rfl
    | [p] => rfl
    | p :: q :: rest => simp [Part.nodes_mapNodes]

end Exchange

/-- Occurrences of the tree that was read tell about nodes of the program. -/
theorem Program.ComesFrom.speaksOf {p : Program} {tree : Node} {last : NodeId} {b : Names}
    (h : p.ComesFrom tree last b) (hsource : tree.FromSource) {o : Occurrence}
    (ho : o ∈ tree.occurrences .plain) : Names.SpeaksOf p.root o := by
  intro b' r name node hregistration
  obtain ⟨m, role, hreaches, hutters⟩ := h.fit.origin ho
  have hstays : m.kind ≠ .typeSpecifier → m.kind ≠ .typeName →
      m.exchangeCallees b.callees ∈ p.root.preorder := by
    rw [h.root]
    exact exchangeCallees_mem b.callees hreaches.mem
  have hid := m.id_exchangeCallees b.callees
  have hkind := m.kind_exchangeCallees b.callees
  cases hutters with
  | prototype hprototype =>
    cases hregistration
    refine ⟨_, hstays (by simp [hprototype]) (by simp [hprototype]), hid, .declare ?_ ?_⟩
    · rw [hkind, hprototype]
    · exact (hsource.below hreaches.mem).wellFormed hprototype
  | @definition x hdefinition hx hprototype =>
    cases hregistration
    refine ⟨_, hstays (by simp [hdefinition]) (by simp [hdefinition]), hid, .define ?_ ?_⟩
    · rw [hkind, hdefinition]
    · exact ((hsource.below hreaches.mem).child (mem_children_iff.mpr ⟨0, hx⟩)).wellFormed
        hprototype
  | call hplain =>
    have hcall := (isPlainCall_iff.mp hplain).1
    simp only [Names.registration?] at hregistration
    split at hregistration
    · cases hregistration
    · split at hregistration
      · cases hregistration
        refine ⟨_, hstays (by simp [hcall]) (by simp [hcall]), hid, ?_⟩
        have hcount : argumentCount (m.field 2) =
            argumentCount ((m.exchangeCallees b.callees).field 2) := by
          rw [arguments_exchangeCallees, argumentCount_exchangeCallees]
        rw [hcount]
        exact .call (by rw [hkind, hcall])
      · cases hregistration
  | _ => cases hregistration

/-- The functions of a name as they are registered in the end. -/
structure Overloads.Consistent (root : Node) (os : Overloads) : Prop where
  /-- Each is registered under the text of its signature, and no two under the same. -/
  keys : os.Keyed
  /-- What is registered of each is what its nodes say. -/
  each : ∀ e ∈ os, e.2.Consistent root
  /-- One that is not declared is only called. -/
  undeclared : ∀ e ∈ os,
    e.2.declaration = none ↔ ∀ i ∈ e.2.references, root.isAny [.functionCall] i = true
  /-- One that is not declared agrees with none that is. -/
  apart : ∀ e ∈ os, ∀ e' ∈ os, e.2.declaration = none → e'.2.declaration ≠ none →
    e.2.signature.agrees e'.2.signature = false

/-- A function without a declaration has only been called. -/
theorem Overload.Consistent.undeclared_iff {o : Overload} (h : o.Consistent root)
    (hroot : root.Distinct) :
    o.declaration = none ↔ ∀ i ∈ o.references, root.isAny [.functionCall] i = true := by
  have hcases : ∀ i ∈ o.references,
      (root.isAny [.functionCall] i = true ↔ ¬root.isAny Kind.declaring i = true) := by
    intro i hi
    obtain ⟨n, hn, hkind⟩ := any_eq_true.mp (h.nodes i hi)
    rw [Bool.and_eq_true, beq_iff_eq] at hkind
    obtain ⟨rfl, hkind⟩ := hkind
    rw [hroot.isAny hn, hroot.isAny hn]
    simp only [Kind.declaring, contains_cons, contains_nil, Bool.or_false,
      Bool.or_eq_true, beq_iff_eq] at hkind ⊢
    rcases hkind with hkind | hkind | hkind <;> simp [hkind]
  rw [h.declaration, find?_eq_none]
  exact forall₂_congr fun i hi => (hcases i hi).symm

/-- Sound overloads are consistent. -/
theorem Overloads.Sound.toConsistent (h : os.Sound root) (hroot : root.Distinct) :
    os.Consistent root where
  keys := h.keyed
  each := h.consistent
  undeclared e he := (h.consistent e he).undeclared_iff hroot
  apart e he e' he' hnone hsome := by
    obtain ⟨k, hk⟩ := h.called e he hnone
    have hapart := h.apart e he e' he' hnone hsome
    rw [hk, arity_call] at hapart
    rw [hk, agrees_comm, ← Bool.not_eq_true,
      agrees_call_iff (h.signatures e' he')]
    exact Ne.symm hapart

/-- **Overloads are consistent.** In a program that was read, the functions of each name are
registered under the texts of their signatures; their calls have as many arguments as they have
parameters; they are declared and defined as their nodes say; and a function that is only called
agrees with none that is declared. They come about step by step: each step that registers a function
gives one function one more node and takes none away, and the other steps leave all as they are. -/
theorem Program.overloads_consistent {text : String} {options : Options} {p : Program}
    (hp : Program.parse text options = .ok p) :
    (∀ name, (p.scopes.overloads name).Consistent p.root) ∧
      ∃ tree last, Program.readNumbered text options = .ok (tree, last) ∧
        ((tree.occurrences .plain).foldl Names.step
          (Binding.initial tree.span last).names).scopes = p.scopes ∧
        ∀ before o after, tree.occurrences .plain = before ++ o :: after →
          (before.foldl Names.step (Binding.initial tree.span last).names).Registers o := by
  obtain ⟨tree, b, htree, hbind, rfl⟩ := Program.parse_eq_ok hp
  have hbound := Program.boundAs_of_ofTree htree hbind
  have hread := Program.readNumbered_of_readTree htree
  have hvalid := Names.valid_initial (tree.number 0).1.span (tree.number 0).2
  refine ⟨fun name => ?_, _, _, hread, ?_,
    fun before o after _ => (hvalid.foldl before).registers o⟩
  · refine Overloads.Sound.toConsistent ?_ hbound.distinct
    rw [hbound.scopes, hbound.names]
    refine Names.sound_foldl hbound.distinct hvalid (fun x => .nil) (fun o ho => ?_) name
    exact hbound.toComesFrom.speaksOf (Program.fromSource_of_readNumbered hread) ho
  · rw [hbound.scopes, hbound.names]

/-- The declaration takes over the function that was called before it. -/
theorem Program.overloads_consistent_called :
    ∃ p, Program.parse "int a=f(1);int f(int);" Options.default = .ok p ∧
      ((p.scopes.overloads "f").map fun e => (e.1, e.2.references.length, e.2.defined)) =
        [("int: int", 2, false)] ∧
      (∀ name, (p.scopes.overloads name).Consistent p.root) := by
  refine Program.exists_of_parse (fun p hparse h =>
    ⟨hparse, h, (Program.overloads_consistent hparse).1⟩) ?_
  decide +kernel

end ShaderSource
