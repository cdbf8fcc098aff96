import ShaderSource.Proofs.Nesting

/-!
# Sources that are read are accepted

Binding can end early for three reasons only: a diagnostic that is an error, a scope that is left
although none was opened, and a node that declares no name where it should. The last two do not
arise for a tree that was read. So reading a source is two things one after the other: its tree is
read, and the tree is bound, whatever the options are. Only at the end it matters whether
diagnostics are errors.

## Main results

* `Occurrence.Nested.allowed`: a run that leaves the scopes it opens can be registered.
* `Program.parse_eq`: reading a source is reading its tree and binding it.
* `Program.parse_of_readTree`: a source whose tree can be read is accepted.
-/

namespace ShaderSource

open List

theorem Names.allowsAll_append {b : Names} {os os' : List Occurrence} :
    b.AllowsAll (os ++ os') ↔ b.AllowsAll os ∧ (os.foldl step b).AllowsAll os' := by
  induction os generalizing b with
  | nil => simp [AllowsAll]
  | cons o os ih => rw [cons_append, AllowsAll, AllowsAll, ih, and_assoc, foldl_cons]

/-- A run that leaves the scopes it opens can be registered. -/
theorem Occurrence.Nested.allowed {above : List Node} {os : List Occurrence} {ls : List Lineage}
    {ids : List NodeId} (h : Nested above os ls ids)
    (hformed : ∀ kind, .malformed kind ∉ os) {b : Names} (hb : b.Valid) : b.AllowsAll os := by
  induction h generalizing b with
  | @flat _ os _ h hids =>
    clear hb hids
    induction os generalizing b with
    | nil => trivial
    | cons o os ih =>
      rw [forall_mem_cons] at h
      refine ⟨?_, ih h.2 fun kind hmem => hformed kind (mem_cons_of_mem _ hmem)⟩
      cases o with
      | leave => cases h.1
      | malformed kind => exact absurd mem_cons_self (hformed kind)
      | _ => trivial
  | append _ _ _ _ ih ih' =>
    simp only [mem_append, not_or] at hformed
    exact Names.allowsAll_append.mpr ⟨ih (fun kind => (hformed kind).1) hb,
      ih' (fun kind => (hformed kind).2) (hb.foldl _)⟩
  | @scope _ n os _ _ hnested ih =>
    simp only [mem_cons, mem_append, not_or] at hformed
    refine ⟨trivial, Names.allowsAll_append.mpr
      ⟨ih (fun kind => (hformed kind).2.1) (hb.step _), ?_, trivial⟩⟩
    -- the scope that is left is the one that was opened, and it has one around it
    obtain ⟨s, hs, hparent⟩ := Names.inner_parent hb os n.scopeName n.span
    refine ⟨s, _, ?_, hparent⟩
    rw [hnested.returns _ (hb.step _), hs]
  | within _ _ ih | mono _ _ ih => exact ih hformed hb

/-- Names are declared by names in a tree that fits. -/
theorem Node.AllFit.formed {n : Node} (h : n.AllFit) (role : Role) (kind : Kind) :
    .malformed kind ∉ n.occurrences role := by
  intro hmem
  obtain ⟨m, role', move, -, -, hvisit, hperform⟩ := h.exists_move hmem
  cases move with
  | visit path role'' => exact hvisit path role'' rfl
  | declare c path =>
    obtain ⟨k, -, hk⟩ := mem_map.mp hperform
    cases c <;> cases hk
  | use c => cases c <;> cases mem_singleton.mp hperform
  | call =>
    obtain ⟨callee, -, hcallee⟩ := mem_flatMap.mp hperform
    obtain ⟨name, -, hname⟩ := mem_map.mp hcallee
    cases hname
  | function path =>
    obtain ⟨prototype, -, hprototype⟩ := mem_flatMap.mp hperform
    rw [Node.functionOccurrence] at hprototype
    split at hprototype <;> simp at hprototype
  | enter | leave => cases mem_singleton.mp hperform

theorem Node.AllFit.allowed {root : Node} (h : root.AllFit) (hdistinct : root.Distinct)
    (hkind : root.kind = .program) (last : NodeId) :
    (Binding.initial root.span last).names.AllowsAll (root.occurrences .plain) :=
  (h.nested_program hdistinct hkind).allowed (h.formed .plain) (Names.valid_initial root.span last)

/-! ### Reading is reading and binding -/

/-- The program that a tree is bound as. -/
def Program.ofRead (tree : Node) : Program :=
  let root := (tree.number 0).1
  let names := (Binding.initial root.span (tree.number 0).2).names
  let bound := (root.occurrences .plain).foldl Names.step names
  ⟨root.exchangeCallees bound.callees, bound.scopes, names.reportsAll (root.occurrences .plain)⟩

/-- The program, or its first diagnostic as an error. -/
def Program.unreported (p : Program) : Except Error Program :=
  match p.diagnostics with
  | [] => .ok p
  | d :: _ => .error (.diagnostic d)

/-- The program, unless it has diagnostics and these are errors. -/
def Program.judged (strict : Bool) (p : Program) : Except Error Program :=
  if strict then p.unreported else .ok p

/-- **Reading a source is reading its tree and binding it.** Diagnostics are judged at the end. -/
theorem Program.parse_eq (text : String) (o : Options) :
    Program.parse text o =
      (Program.readText text o).bind fun tree => (Program.ofRead tree).judged o.strict := by
  unfold Program.parse Program.parseLogged Program.readNumbered
  cases htree : Program.readText text o with
  | error e => rfl
  | ok tree =>
    have hleads : BindM.Leads o.policy _ _ _ _ :=
      BindM.leads_steps ((Node.number_allFit (readTree_allFit htree) 0).allowed
        (tree.number_consecutive 0).nodup (readTree_kind htree) (tree.number 0).2)
    change _ = (Program.ofRead tree).judged o.strict
    simp only [Except.map, Binding.ofTree]
    rcases hleads with ⟨⟨⟩, b, hrun, hnames, hreported, hnone⟩ | ⟨d, ds, b, hstrict, hds, hrun⟩
    · have hprogram : Program.ofRead tree =
          ⟨(tree.number 0).1.exchangeCallees b.names.callees, b.names.scopes, b.diagnostics⟩ := by
        rw [hnames, hreported]
        rfl
      rw [hrun, hprogram]
      cases hstrict : o.strict with
      | false => rfl
      | true =>
        have hdiagnostics : b.diagnostics = [] := hreported.trans (hnone hstrict)
        simp only [Program.judged, Program.unreported, hdiagnostics]
        rfl
    · rw [hrun, show o.strict = true from hstrict]
      simp only [Program.judged, Program.unreported, Program.ofRead, hds, if_true]

/-- **A source whose tree can be read is accepted** if diagnostics are no errors. -/
theorem Program.parse_of_readTree {text : String} {options : Options}
    (hstrict : options.strict = false) {tree : Node}
    (htree : Program.readText text options = .ok tree) :
    ∃ b, Binding.ofTree options.policy (tree.number 0).1 (tree.number 0).2 = (.ok (), b) ∧
      Program.parse text options =
        .ok ⟨(tree.number 0).1.exchangeCallees b.callees, b.scopes, b.diagnostics⟩ := by
  have hparse : Program.parse text options = .ok (Program.ofRead tree) := by
    rw [parse_eq, htree, hstrict]
    rfl
  obtain ⟨tree', b, htree', hbind, hprogram⟩ := Program.parse_eq_ok hparse
  obtain rfl := Except.ok.inj (htree.symm.trans htree')
  exact ⟨b, hbind, hprogram ▸ hparse⟩

end ShaderSource
