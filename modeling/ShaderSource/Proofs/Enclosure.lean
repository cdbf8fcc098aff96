import ShaderSource.Proofs.Callees

/-!
# Nodes that open scopes and what lies in them

Which nodes open scopes can be read off the tree without binding any names: functions, prototypes
that stand on their own, loops, switches, and compound statements that are not the bodies of
functions or loops. What lies in the scope of such a node is told by its kind, `Kind.scopeParts`:
the parameters and the body of a function but not the type of its result, the condition of a
`while` but not that of a `do`, the cases of a `switch` but not its value. So the scopes around a
node are known from the tree, `Node.scopesAround`.

The run of a tree has the same shape. It is made of runs that open no scope and of runs in scopes of
their own, `Occurrence.Nested`, and what is mentioned in such a run lies in the scope. Binding does
not go through a tree in pre-order: the members of a block come up twice, the type of a function
before its prototype, and the condition of a loop may come after its body. None of this matters
here, for the nodes that are out of order have nothing in them that opens a scope,
`Kind.holdsScopes`.

## Main results

* `Node.AllFit.nested`: a run over a node opens the scopes of its nodes, in pre-order, and what it
  mentions lies where it is mentioned.
-/

namespace ShaderSource

open List Node

variable {n : Node} {above : List Node} {o : Occurrence} {i : NodeId}

/-! ### Nodes with what is above them -/

/-- A node with the nodes above it, the nearest first. -/
structure Lineage where
  node : Node
  above : List Node

mutual

/-- The nodes of a tree in pre-order, each with what is above it. -/
def Node.lineages (above : List Node) : Node → List Lineage
  | .mk k i s ps => ⟨.mk k i s ps, above⟩ :: Part.lineagesAll (.mk k i s ps :: above) ps

/-- The nodes in a list of parts. -/
def Part.lineagesAll (above : List Node) : List Part → List Lineage
  | [] => []
  | p :: ps => p.lineages above ++ Part.lineagesAll above ps

/-- The nodes in a part. -/
def Part.lineages (above : List Node) : Part → List Lineage
  | .text _ => []
  | .token _ => []
  | .optToken _ => []
  | .child n => n.lineages above
  | .optChild none => []
  | .optChild (some n) => n.lineages above
  | .list ns | .separated ns _ => Node.lineagesAll above ns
  | .branch _ none => []
  | .branch _ (some n) => n.lineages above

/-- The nodes in a list of nodes. -/
def Node.lineagesAll (above : List Node) : List Node → List Lineage
  | [] => []
  | n :: ns => n.lineages above ++ Node.lineagesAll above ns

end

section Lineages

variable (above : List Node)

theorem Node.lineagesAll_eq (ns : List Node) :
    Node.lineagesAll above ns = ns.flatMap (Node.lineages above) := by
  induction ns with
  | nil => rw [Node.lineagesAll, flatMap_nil]
  | cons n ns ih => rw [Node.lineagesAll, ih, flatMap_cons]

theorem Part.lineages_eq (p : Part) :
    p.lineages above = p.nodes.flatMap (Node.lineages above) := by
  cases p with
  | text | token | optToken => rw [Part.lineages]; rfl
  | child => simp [Part.lineages, Part.nodes]
  | optChild m | branch _ m => cases m <;> simp [Part.lineages, Part.nodes]
  | list | separated => simp [Part.lineages, Part.nodes, lineagesAll_eq]

theorem Part.lineagesAll_eq (ps : List Part) :
    Part.lineagesAll above ps = (ps.flatMap Part.nodes).flatMap (Node.lineages above) := by
  induction ps with
  | nil => rw [Part.lineagesAll]; rfl
  | cons p ps ih =>
    rw [Part.lineagesAll, ih, Part.lineages_eq, flatMap_cons, flatMap_append]

/-- A node comes first, then what is below it, child by child. -/
theorem Node.lineages_eq (n : Node) :
    n.lineages above = ⟨n, above⟩ :: n.children.flatMap (Node.lineages (n :: above)) := by
  obtain ⟨k, i, s, ps⟩ := n
  rw [Node.lineages, Part.lineagesAll_eq, children_mk]

end Lineages

/-! ### Nodes that open scopes -/

/-- The kinds of nodes that open a scope for their body, if that is a compound statement. -/
def Kind.hasBody : Kind → Bool
  | .functionDefinition | .whileStatement | .doStatement | .forStatement => true
  | _ => false

/-- Whether a node of the kind opens a scope, below a node of another kind. -/
def Kind.opensBelow (above : Option Kind) : Kind → Bool
  | .functionDefinition | .whileStatement | .doStatement | .forStatement | .switchStatement => true
  | .functionPrototype => above != some .functionDefinition
  | .compoundStatement => !above.any Kind.hasBody
  | _ => false

/-- The name of the scope that a node opens. -/
def Node.scopeName (n : Node) : String :=
  match n.kind with
  | .functionDefinition => ((n.field 0).map Node.prototypeName).headD ""
  | .functionPrototype => n.prototypeName
  | .compoundStatement => "compound statement"
  | .whileStatement => "while"
  | .doStatement => "do"
  | .forStatement => "for"
  | .switchStatement => "switch"
  | _ => ""

namespace Lineage

/-- Whether the node opens a scope. -/
def opens (l : Lineage) : Bool :=
  l.node.kind.opensBelow (l.above.head?.map Node.kind)

/-- The nodes of a list of nodes, each above the one before it. -/
def upwards : List Node → List Lineage
  | [] => []
  | n :: above => ⟨n, above⟩ :: upwards above

/-- The nearest of the nodes that opens a scope. -/
def nearest? (above : List Node) : Option Lineage :=
  (upwards above).find? opens

/-- The nearest node around that opens a scope. -/
def enclosing? (l : Lineage) : Option Lineage :=
  nearest? l.above

theorem nearest?_cons_of_opens (h : (Lineage.mk n above).opens = true) :
    nearest? (n :: above) = some ⟨n, above⟩ :=
  find?_cons_of_pos h

theorem nearest?_cons_of_not (h : (Lineage.mk n above).opens = false) :
    nearest? (n :: above) = nearest? above :=
  find?_cons_of_neg (by rw [h]; exact Bool.false_ne_true)

end Lineage

/-- The nodes that open scopes in a tree below the given nodes, in pre-order. -/
def Node.openingsBelow (above : List Node) (n : Node) : List Lineage :=
  (n.lineages above).filter Lineage.opens

/-- The nodes that open scopes, in pre-order. -/
def Node.openings (n : Node) : List Lineage :=
  n.openingsBelow []

/-! ### What lies in a scope -/

/-- The parts of a node of the kind that lie in the scope that it opens, by the ways that lead to
them. -/
def Kind.scopeParts : Kind → List (List Nat)
  | .functionDefinition => [[0, 1], [1]]
  | .functionPrototype => [[1]]
  | .compoundStatement => [[1]]
  | .whileStatement => [[2], [4]]
  | .doStatement => [[1]]
  | .forStatement => [[2], [3], [5], [7]]
  | .switchStatement => [[5]]
  | _ => []

/-- The identities of the nodes in the scope that a node opens. -/
def Node.enclosed (n : Node) : List NodeId :=
  n.kind.scopeParts.flatMap fun path => (n.along path).flatMap Node.ids

namespace Lineage

variable {openings ls : List Lineage}

end Lineage

/-! ### Runs in scopes -/

/-- A run below the given nodes opens the scopes of some nodes, in their order, and mentions
variables at some nodes. It opens no scope, or is made of runs and of runs in scopes of their
own. -/
inductive Occurrence.Nested :
    List Node → List Occurrence → List Lineage → List NodeId → Prop
  | flat {above os ids} (hflat : ∀ o ∈ os, o.isFlat = true)
      (hids : ∀ o ∈ os, o.mentions .vars ⊆ ids) : Nested above os [] ids
  /-- What either run mentions lies in none of the scopes of the other one. -/
  | append {above os os' ls ls' ids ids'} (h : Nested above os ls ids)
      (h' : Nested above os' ls' ids') (hapart : ∀ l ∈ ls, l.node.enclosed.Disjoint ids')
      (hapart' : ∀ l ∈ ls', l.node.enclosed.Disjoint ids) :
      Nested above (os ++ os') (ls ++ ls') (ids ++ ids')
  /-- A run in a scope mentions what lies there. -/
  | scope {above n os ls} (hopens : (Lineage.mk n above).opens = true)
      (h : Nested (n :: above) os ls n.enclosed) :
      Nested above (.enter n.scopeName n.span :: (os ++ [.leave])) (⟨n, above⟩ :: ls) n.enclosed
  | within {above n os ls ids} (hopens : (Lineage.mk n above).opens = false)
      (h : Nested (n :: above) os ls ids) : Nested above os ls ids
  | mono {above os ls ids ids'} (h : Nested above os ls ids) (hsub : ids ⊆ ids') :
      Nested above os ls ids'

namespace Occurrence.Nested

variable {os os' : List Occurrence} {ls ls' : List Lineage} {ids ids' : List NodeId}

theorem mentions_mem (h : Nested above os ls ids) (ho : o ∈ os) (hi : i ∈ o.mentions .vars) :
    i ∈ ids := by
  induction h with
  | flat _ hids => exact hids o ho hi
  | append _ _ _ _ ih ih' =>
    rcases mem_append.mp ho with ho | ho
    · exact mem_append_left _ (ih ho)
    · exact mem_append_right _ (ih' ho)
  | scope _ _ ih =>
    rcases mem_cons.mp ho with rfl | ho
    · cases hi
    · rcases mem_append.mp ho with ho | ho
      · exact ih ho
      · obtain rfl := mem_singleton.mp ho
        cases hi
  | within _ _ ih => exact ih ho
  | mono _ hsub ih => exact hsub (ih ho)

theorem enclosed_subset (h : Nested above os ls ids) {l : Lineage} (hl : l ∈ ls) :
    l.node.enclosed ⊆ ids := by
  induction h with
  | flat => cases hl
  | append _ _ _ _ ih ih' =>
    rcases mem_append.mp hl with hl | hl
    · exact fun i hi => mem_append_left _ (ih hl hi)
    · exact fun i hi => mem_append_right _ (ih' hl hi)
  | scope _ _ ih =>
    rcases mem_cons.mp hl with rfl | hl
    · exact Subset.refl _
    · exact ih hl
  | within _ _ ih => exact ih hl
  | mono _ hsub ih => exact fun i hi => hsub (ih hl hi)

theorem append_of_disjoint (h : Nested above os ls ids) (h' : Nested above os' ls' ids')
    (hdisjoint : ids.Disjoint ids') : Nested above (os ++ os') (ls ++ ls') (ids ++ ids') :=
  h.append h' (fun _ hl _ hi => hdisjoint (h.enclosed_subset hl hi))
    fun _ hl _ hi hi' => hdisjoint hi' (h'.enclosed_subset hl hi)

theorem flatMap {α : Type} {l : List α} {f : α → List Occurrence} {g : α → List Lineage}
    {d : α → List NodeId} (h : ∀ a ∈ l, Nested above (f a) (g a) (d a))
    (hnodup : (l.flatMap d).Nodup) :
    Nested above (l.flatMap f) (l.flatMap g) (l.flatMap d) := by
  induction l with
  | nil => exact .flat (by simp) (by simp)
  | cons a l ih =>
    rw [forall_mem_cons] at h
    rw [flatMap_cons] at hnodup
    exact h.1.append_of_disjoint (ih h.2 hnodup.of_append_right)
      (disjoint_of_nodup_append hnodup)

end Occurrence.Nested

/-- A run over the node opens the scopes of the nodes of its tree, in pre-order, and what it
mentions in a scope lies there. -/
abbrev Node.Nested (n : Node) (above : List Node) (role : Role) : Prop :=
  Occurrence.Nested above (n.occurrences role) (n.openingsBelow above) n.ids

/-! ### What a tree opens -/

/-- A node of the one kind is gone through in the role right below one of the other, as it takes its
scopes for granted: the body of a function or of a loop has the scope of that, and the prototype of
a function is gone through as a part of it. -/
def Kind.hands (role : Role) (k k' : Kind) : Bool :=
  (k' != .compoundStatement || (role == .body) == k.hasBody) &&
    (k' != .functionPrototype || k != .functionDefinition)

theorem Kind.opensBelow_eq_false {k : Kind} (h : k.holdsScopes = false) (above : Option Kind) :
    k.opensBelow above = false := by
  cases k <;> first | rfl | cases h

/-- The kinds of nodes that a part may hold. -/
def Kind.kindsIn (k : Kind) (i : Nat) : List Kind :=
  ((k.form[i]?).map Field.kinds).getD []

/-- The kinds of nodes that one may come to through the given parts. -/
def Kind.kindsAlong : List Nat → Kind → List Kind
  | [], k => [k]
  | i :: path, k => (k.kindsIn i).flatMap (kindsAlong path)

/-- Whether nodes that open scopes may be found through the given parts. The prototype of a function
opens none. -/
def Kind.holdsAlong (k : Kind) (path : List Nat) : Bool :=
  (k.kindsAlong path).any fun k' =>
    k'.holdsScopes && (k' != .functionPrototype || k != .functionDefinition)

/-- The parts that may hold nodes that open scopes. -/
def Kind.scopeFields (k : Kind) : List (List Nat) :=
  ((List.range k.form.length).map fun i => [i]).filter k.holdsAlong

/-- The nodes that open scopes in a part of the node. -/
def Node.openingsAlong (above : List Node) (n : Node) : List Nat → List Lineage
  | [i] => (n.field i).flatMap (Node.openingsBelow (n :: above))
  | _ => []

section Trees

variable {n c m : Node} {above : List Node} {role : Role} {path : List Nat}

theorem Node.openingsBelow_eq (n : Node) (above : List Node) :
    n.openingsBelow above =
      (if (Lineage.mk n above).opens then [⟨n, above⟩] else []) ++
        n.children.flatMap (Node.openingsBelow (n :: above)) := by
  rw [Node.openingsBelow, lineages_eq, filter_cons, filter_flatMap]
  split <;> rfl

theorem flatMap_filter_of_eq_nil {α β : Type} {p : α → Bool} {f : α → List β} (l : List α)
    (h : ∀ a ∈ l, p a = false → f a = []) : (l.filter p).flatMap f = l.flatMap f := by
  induction l with
  | nil => rfl
  | cons a l ih =>
    rw [forall_mem_cons] at h
    rw [filter_cons, flatMap_cons]
    cases hp : p a with
    | true => rw [if_pos rfl, flatMap_cons, ih h.2]
    | false => rw [if_neg Bool.false_ne_true, h.1 hp, nil_append, ih h.2]

namespace Node.AllFit

variable (h : n.AllFit)

include h

/-- Where no scopes are held, none is opened. -/
theorem openingsBelow_eq_nil (hkind : n.kind.holdsScopes = false)
    (above : List Node) : n.openingsBelow above = [] := by
  induction n using induction generalizing above with
  | h n ih =>
    have hopens : (Lineage.mk n above).opens = false := Kind.opensBelow_eq_false hkind _
    rw [openingsBelow_eq, hopens, if_neg Bool.false_ne_true, nil_append,
      flatMap_eq_nil_iff]
    exact fun c hc => ih c hc (h.child hc) (h.holdsScopes_child hkind hc) _

theorem kind_mem_along (hm : m ∈ n.along path) : m.kind ∈ n.kind.kindsAlong path := by
  induction path generalizing n with
  | nil => exact mem_singleton.mp hm ▸ mem_singleton_self _
  | cons i path ih =>
    obtain ⟨c, hc, hm⟩ := mem_flatMap.mp hm
    exact mem_flatMap.mpr ⟨c.kind, h.fits.kind_mem_field hc,
      ih (h.child (mem_children_iff.mpr ⟨i, hc⟩)) hm⟩

/-- The prototype of a function opens no scope for itself. -/
theorem openings_prototype (hkind : n.kind = .functionPrototype)
    {f : Node} (hf : f.kind = .functionDefinition) (above : List Node) :
    n.openingsBelow (f :: above) = [] := by
  have hopens : (Lineage.mk n (f :: above)).opens = false := by
    simp [Lineage.opens, hkind, hf, Kind.opensBelow]
  rw [openingsBelow_eq, hopens, if_neg Bool.false_ne_true, nil_append, flatMap_eq_nil_iff]
  intro c hc
  refine (h.child hc).openingsBelow_eq_nil ?_ _
  obtain ⟨i, hi⟩ := mem_children_iff.mp hc
  have hform := h.fits.kind_mem_field hi
  rw [hkind] at hform
  rcases i with _ | _ | _ | i
  · rw [mem_singleton.mp hform]; rfl
  · rw [mem_singleton.mp hform]; rfl
  · cases hform
  · cases hform

/-- A part without nodes that open scopes. -/
theorem openingsAlong_eq_nil (above : List Node)
    (hform : n.kind.holdsAlong path = false) : n.openingsAlong above path = [] := by
  unfold Node.openingsAlong
  split
  · rename_i i
    refine flatMap_eq_nil_iff.mpr fun c hc => ?_
    have hfit := h.child (mem_children_iff.mpr ⟨i, hc⟩)
    have hkind := any_eq_false.mp hform _ (h.kind_mem_along (by simpa [Node.along] using hc))
    cases hholds : c.kind.holdsScopes with
    | false => exact hfit.openingsBelow_eq_nil hholds _
    | true =>
      simp only [hholds, Bool.true_and, Bool.or_eq_true, bne_iff_ne, not_or, not_not] at hkind
      exact hfit.openings_prototype hkind.1 hkind.2 above
  · rfl

/-- What is opened below a node is opened in the parts that may hold such nodes. -/
theorem flatMap_openings (above : List Node) {paths : List (List Nat)}
    (hpaths : paths.filter n.kind.holdsAlong = n.kind.scopeFields) :
    n.children.flatMap (Node.openingsBelow (n :: above)) =
      paths.flatMap (n.openingsAlong above) := by
  have hnone : ∀ path, n.kind.holdsAlong path = false → n.openingsAlong above path = [] :=
    fun path hpath => h.openingsAlong_eq_nil above hpath
  rw [← flatMap_filter_of_eq_nil paths fun path _ => hnone path, hpaths, Kind.scopeFields,
    flatMap_filter_of_eq_nil _ fun path _ => hnone path, flatMap_map, flatMap_children,
    h.fits.length_parts]
  rfl

/-- What is mentioned while parts are gone through stands there. -/
theorem mentions_visit (ho : o ∈ n.perform (.visit path role)) :
    o.mentions .vars ⊆ n.callRegion (.visit path role) := by
  obtain ⟨m, hm, ho⟩ := mem_flatMap.mp ho
  exact fun i hi => mem_flatMap.mpr
    ⟨m, hm, (occurrence_about (h.below (mem_along hm)) ho).mentions_mem hi⟩

/-- Going through parts without nodes that hold scopes. -/
theorem flat_visit (hform : (n.kind.kindsAlong path).all (fun k => !k.holdsScopes) = true)
    (ho : o ∈ n.perform (.visit path role)) : o.isFlat = true := by
  obtain ⟨m, hm, ho⟩ := mem_flatMap.mp ho
  have hkind := all_eq_true.mp hform _ (h.kind_mem_along hm)
  exact (h.below (mem_along hm)).flat ((Bool.not_eq_true' _).mp hkind) ho

end Node.AllFit

end Trees

/-- Parts that are gone through one after the other. -/
def Move.visits (visits : List (List Nat × Role)) : List Move :=
  visits.map fun v => .visit v.1 v.2

/-- Whether the parts are gone through as they take their scopes for granted. Only parts of the node
itself may hold any. -/
def Kind.visitsWell (k : Kind) (v : List Nat × Role) : Bool :=
  (k.kindsAlong v.1).all fun k' => !k'.holdsScopes || v.1.length == 1 && k.hands v.2 k'

/-- The parts that are gone through in a scope are those that lie in it, and with them all that may
hold further scopes. -/
structure Kind.Scopes (k : Kind) (outside inside : List (List Nat × Role)) : Prop where
  flat : outside.all (fun v => (k.kindsAlong v.1).all fun k' => !k'.holdsScopes) = true
  well : inside.all k.visitsWell = true
  fields : (inside.map Prod.fst).filter k.holdsAlong = k.scopeFields
  parts : inside.map Prod.fst = k.scopeParts

section Kinds

variable {n : Node} {above : List Node} {role : Role} (h : n.AllFit)

include h

/-- Going through parts without nodes that hold scopes opens none. -/
theorem Node.AllFit.nested_flat {visits : List (List Nat × Role)}
    (hflat : visits.all (fun v => (n.kind.kindsAlong v.1).all fun k => !k.holdsScopes) = true) :
    Occurrence.Nested above ((Move.visits visits).flatMap n.perform) []
      ((Move.visits visits).flatMap n.callRegion) := by
  have hvisit : ∀ o ∈ (Move.visits visits).flatMap n.perform, ∃ v ∈ visits,
      o ∈ n.perform (.visit v.1 v.2) := by
    intro o ho
    rw [Move.visits, flatMap_map] at ho
    exact mem_flatMap.mp ho
  refine .flat (fun o ho => ?_) fun o ho => ?_
  · obtain ⟨v, hv, ho⟩ := hvisit o ho
    exact h.flat_visit (all_eq_true.mp hflat v hv) ho
  · obtain ⟨v, hv, ho⟩ := hvisit o ho
    exact fun i hi => mem_flatMap.mpr ⟨_, mem_map_of_mem hv, h.mentions_visit ho hi⟩

variable (ih : ∀ c ∈ n.children, ∀ role, n.kind.hands role c.kind = true →
  c.Nested (n :: above) role)

include ih

/-- What is gone through opens the scopes there. -/
theorem Node.AllFit.nested_visit {v : List Nat × Role} (hform : n.kind.visitsWell v = true)
    (hnodup : (n.callRegion (.visit v.1 v.2)).Nodup) :
    Occurrence.Nested (n :: above) (n.perform (.visit v.1 v.2)) (n.openingsAlong above v.1)
      (n.callRegion (.visit v.1 v.2)) := by
  obtain ⟨path, role⟩ := v
  rw [Kind.visitsWell, all_eq_true] at hform
  have hflat : path.length ≠ 1 → (n.kind.kindsAlong path).all (fun k => !k.holdsScopes) = true :=
    fun hpath => all_eq_true.mpr fun k hk => by simpa [hpath] using hform k hk
  have hnone : path.length ≠ 1 → Occurrence.Nested (n :: above) (n.perform (.visit path role)) []
      (n.callRegion (.visit path role)) :=
    fun hpath => .flat (fun o ho => h.flat_visit (hflat hpath) ho) fun o ho => h.mentions_visit ho
  match path with
  | [] | _ :: _ :: _ => exact hnone (by simp)
  | [i] =>
    have halong : n.along [i] = n.field i := by simp [Node.along]
    rw [callRegion, halong] at hnodup ⊢
    rw [Node.perform, halong]
    refine .flatMap (fun c hc => ?_) hnodup
    have hchild := mem_children_iff.mpr ⟨i, hc⟩
    have hfit := h.child hchild
    have hkind := hform _ (h.kind_mem_along (halong ▸ hc))
    cases hholds : c.kind.holdsScopes with
    | true => exact ih c hchild role (by simpa [hholds] using hkind)
    | false =>
      rw [hfit.openingsBelow_eq_nil hholds]
      exact .flat (fun o ho => hfit.flat hholds ho)
        fun o ho i hi => (occurrence_about hfit ho).mentions_mem hi

/-- What is gone through part by part opens the scopes there, if no part that may hold scopes is
left out. -/
theorem Node.AllFit.nested_visits {visits : List (List Nat × Role)}
    (hform : visits.all n.kind.visitsWell = true)
    (hfields : (visits.map Prod.fst).filter n.kind.holdsAlong = n.kind.scopeFields)
    (hnodup : ((Move.visits visits).flatMap n.callRegion).Nodup) :
    Occurrence.Nested (n :: above) ((Move.visits visits).flatMap n.perform)
      (n.children.flatMap (Node.openingsBelow (n :: above)))
      ((Move.visits visits).flatMap n.callRegion) := by
  rw [Move.visits, flatMap_map] at hnodup
  rw [h.flatMap_openings above hfields, Move.visits, flatMap_map, flatMap_map, flatMap_map]
  exact .flatMap (fun v hv => h.nested_visit ih (all_eq_true.mp hform v hv)
    ((nodup_flatMap.mp hnodup).1 v hv)) hnodup

variable (hdistinct : n.Distinct) (hblock : n.isOpenBlock = false)

include hdistinct hblock

/-- A node that is gone through part by part and opens no scope. -/
theorem Node.AllFit.nested_through (hopens : (Lineage.mk n above).opens = false)
    (visits : List (List Nat × Role)) (hplan : n.plan role = Move.visits visits)
    (hform : visits.all n.kind.visitsWell = true)
    (hfields : (visits.map Prod.fst).filter n.kind.holdsAlong = n.kind.scopeFields) :
    n.Nested above role := by
  have hregions := h.callRegions hblock role
  rw [hplan] at hregions
  rw [Node.Nested, openingsBelow_eq, hopens, if_neg Bool.false_ne_true, nil_append,
    h.occurrences_eq, hplan]
  exact ((h.nested_visits ih hform hfields (hregions.nodup hdistinct)).within hopens).mono
    hregions.subset

/-- A node that opens a scope: some parts are gone through in it, `inside`, and others before it is
opened or after it is left. -/
theorem Node.AllFit.nested_scope {k : Kind} (hkind : n.kind = k)
    (hopens : (Lineage.mk n above).opens = true) (before inside after : List (List Nat × Role))
    (opening : Move) (outside : List Occurrence)
    (hplan : n.plan role =
      Move.visits before ++ opening :: (Move.visits inside ++ .leave :: Move.visits after))
    (hopening : n.perform opening = outside ++ [.enter n.scopeName n.span])
    (houtside : ∀ o ∈ outside, o.isFlat = true ∧ o.mentions .vars = [])
    (hparts : k.Scopes (before ++ after) inside) : n.Nested above role := by
  subst hkind
  -- The regions of the moves are apart from each other.
  have hregions := h.callRegions hblock role
  rw [hplan, flatMap_append, flatMap_cons, flatMap_append, flatMap_cons] at hregions
  obtain ⟨-, hrest, hbefore⟩ := nodup_append'.mp (hregions.nodup hdistinct)
  obtain ⟨hinside, -, hafter⟩ := nodup_append'.mp hrest.of_append_right
  have henclosed : (Move.visits inside).flatMap n.callRegion = n.enclosed := by
    rw [Node.enclosed, ← hparts.parts, Move.visits, flatMap_map, flatMap_map]
    rfl
  have hsub := hregions.subset
  have hinner := h.nested_visits ih hparts.well hparts.fields hinside
  rw [henclosed] at hinner hafter hbefore hsub
  have hscope := hinner.scope hopens
  have hflat := hparts.flat
  rw [all_append, Bool.and_eq_true] at hflat
  have hperform : n.occurrences role = ((Move.visits before).flatMap n.perform ++ outside) ++
      (.enter n.scopeName n.span :: ((Move.visits inside).flatMap n.perform ++ [.leave]) ++
        (Move.visits after).flatMap n.perform) := by
    simp [h.occurrences_eq, hplan, hopening, show n.perform .leave = [.leave] from rfl]
  have hopenings : n.openingsBelow above = ([] ++ []) ++
      ((⟨n, above⟩ :: n.children.flatMap (Node.openingsBelow (n :: above))) ++ []) := by
    simp [openingsBelow_eq n above, hopens]
  have houter : Occurrence.Nested above outside [] [] :=
    .flat (fun o ho => (houtside o ho).1) fun o ho => by simp [(houtside o ho).2]
  have hfirst := (h.nested_flat hflat.1).append houter (by simp) (by simp)
  have hlast := hscope.append (h.nested_flat hflat.2)
    (fun l hl i hi hi' => hafter (hscope.enclosed_subset hl hi) (mem_append_right _ hi')) (by simp)
  rw [Node.Nested, hperform, hopenings]
  refine (hfirst.append hlast (by simp) fun l hl i hi hi' => ?_).mono ?_
  · rw [append_nil] at hl hi'
    exact hbefore hi' (by simp [hscope.enclosed_subset hl hi])
  · intro i hi
    refine hsub ?_
    simp only [mem_append, not_mem_nil, or_false] at hi ⊢
    rcases hi with hi | hi | hi
    · exact .inl hi
    · exact .inr (.inr (.inl hi))
    · exact .inr (.inr (.inr (.inr hi)))

/-- A node of a kind that is gone through part by part. -/
theorem Node.AllFit.nested_uniform (hplan : n.plan role = n.kind.plan role)
    (huniform : n.kind.isUniform = true) : n.Nested above role := by
  have hkind : n.kind.hasBody = false ∧ n.kind ≠ .functionDefinition ∧
      (Lineage.mk n above).opens = false := by
    unfold Lineage.opens
    revert huniform
    cases n.kind <;>
      first
      | exact fun _ => ⟨rfl, Kind.noConfusion, rfl⟩
      | exact fun h => absurd h (by decide)
  obtain ⟨hbody, hdefinition, hopens⟩ := hkind
  refine h.nested_through ih hdistinct hblock hopens
    ((List.range n.kind.form.length).map fun i => ([i], .plain)) ?_ ?_ ?_
  · rw [hplan, Kind.plan_of_uniform huniform, Move.visits, map_map]
    rfl
  · refine all_eq_true.mpr fun v hv => ?_
    obtain ⟨i, -, rfl⟩ := mem_map.mp hv
    simp [Kind.visitsWell, Kind.hands, hbody, hdefinition]
  · rw [map_map]
    rfl

/-- A statement that opens a scope. -/
theorem Node.AllFit.nested_statement {k : Kind} (hkind : n.kind = k)
    (hopens : (Lineage.mk n above).opens = true) (before inside after : List (List Nat × Role))
    (hplan : n.plan role = Move.visits before ++
      .enter n.scopeName :: (Move.visits inside ++ .leave :: Move.visits after))
    (hparts : k.Scopes (before ++ after) inside) : n.Nested above role :=
  h.nested_scope ih hdistinct hblock hkind hopens before inside after _ [] hplan rfl
    (fun _ ho => by cases ho) hparts

/-- A compound statement opens a scope unless it is the body of something that has one. -/
theorem Node.AllFit.nested_compound (hplan : n.plan role = n.kind.plan role)
    (hkind : n.kind = .compoundStatement)
    (hopens : (Lineage.mk n above).opens = (role != .body)) : n.Nested above role := by
  have hname : n.scopeName = "compound statement" := by simp only [Node.scopeName, hkind]
  rw [hkind, Kind.plan] at hplan
  by_cases hbody : role = .body
  · rw [if_pos hbody] at hplan
    exact h.nested_through ih hdistinct hblock (by simp [hopens, hbody]) [([1], .plain)] hplan
      (by rw [hkind]; rfl) (by rw [hkind]; rfl)
  · rw [if_neg hbody, ← hname] at hplan
    exact h.nested_statement ih hdistinct hblock hkind (by simp [hopens, hbody]) []
      [([1], .plain)] [] hplan ⟨rfl, rfl, rfl, rfl⟩

/-- A function or a prototype that stands on its own: its scope is opened right after it is
registered. -/
theorem Node.AllFit.nested_function {k : Kind} (hkind : n.kind = k)
    (hopens : (Lineage.mk n above).opens = true) (path : List Nat) (prototype : Node)
    (hprototype : n.along path = [prototype]) (hname : n.scopeName = prototype.prototypeName)
    (before inside : List (List Nat × Role))
    (hplan : n.plan role = Move.visits before ++ .function path :: (Move.visits inside ++ [.leave]))
    (hparts : k.Scopes before inside) : n.Nested above role := by
  refine h.nested_scope ih hdistinct hblock hkind hopens before inside [] _
    [n.functionOccurrence prototype.prototypeName prototype.prototypeSignature] hplan ?_
    (fun o ho => ?_) (by rwa [append_nil])
  · simp [Node.perform, hprototype, hname]
  · obtain rfl := mem_singleton.mp ho
    unfold Node.functionOccurrence
    split <;> exact ⟨rfl, rfl⟩

end Kinds

/-- **What a run over a node opens** are the scopes of its nodes that open some, in pre-order, and
what it mentions in a scope lies there. -/
theorem Node.AllFit.nested {parent : Node} {role : Role} (h : n.AllFit) (hdistinct : n.Distinct)
    (hhands : parent.kind.hands role n.kind = true) : n.Nested (parent :: above) role := by
  induction n using induction generalizing parent above role with
  | h n ih =>
    have ih' : ∀ c ∈ n.children, ∀ role, n.kind.hands role c.kind = true →
        c.Nested (n :: parent :: above) role :=
      fun c hc role hhands => ih c hc (h.child hc) (hdistinct.below (child_mem_preorder hc)) hhands
    by_cases hholds : n.kind.holdsScopes = false
    · rw [Node.Nested, h.openingsBelow_eq_nil hholds]
      exact .flat (fun o ho => h.flat hholds ho)
        fun o ho i hi => (occurrence_about h ho).mentions_mem hi
    have hne : ∀ k, k.holdsScopes = false → n.kind ≠ k := fun k hk heq => hholds (heq ▸ hk)
    have hplan := plan_of_kind (hne _ rfl) (hne _ rfl) role
    have hblock : n.isOpenBlock = false := by simp [isOpenBlock, hne .interfaceBlock rfl]
    by_cases huniform : n.kind.isUniform = true
    · exact h.nested_uniform ih' hdistinct hblock hplan huniform
    have hstatement : ∀ k, n.kind = k → (∀ above, k.opensBelow above = true) →
        (Lineage.mk n (parent :: above)).opens = true :=
      fun k hkind hopens => (congrArg (Kind.opensBelow _) hkind).trans (hopens _)
    -- The kinds that are left are those that open scopes.
    cases hkind : n.kind with
    | functionDefinition =>
      obtain ⟨prototype, hfield⟩ : ∃ prototype, n.field 0 = [prototype] :=
        h.fits.exists_child (by rw [hkind]; rfl)
      exact h.nested_function ih' hdistinct hblock hkind (hstatement _ hkind fun _ => rfl) [0]
        prototype (by simp [Node.along, hfield])
        (by simp [Node.scopeName, hkind, hfield]) [([0, 0, 0], .plain)]
        [([0, 1], .plain), ([1], .body)] (by rw [hplan, hkind]; rfl) ⟨rfl, rfl, rfl, rfl⟩
    | functionPrototype =>
      refine h.nested_function ih' hdistinct hblock hkind ?_ [] n rfl
        (by simp only [Node.scopeName, hkind]) [([0, 0], .plain)] [([1], .plain)]
        (by rw [hplan, hkind]; rfl) ⟨rfl, rfl, rfl, rfl⟩
      simpa [Kind.hands, Lineage.opens, Kind.opensBelow, hkind] using hhands
    | compoundStatement =>
      refine h.nested_compound ih' hdistinct hblock hplan hkind ?_
      have hrole : (role == .body) = parent.kind.hasBody := by
        simpa [Kind.hands, hkind] using hhands
      simp [Lineage.opens, Kind.opensBelow, hkind, ← hrole, bne]
    | whileStatement =>
      exact h.nested_statement ih' hdistinct hblock hkind (hstatement _ hkind fun _ => rfl) []
        [([2], .plain), ([4], .body)] [] (by simp only [hplan, scopeName, hkind]; rfl)
        ⟨rfl, rfl, rfl, rfl⟩
    | doStatement =>
      exact h.nested_statement ih' hdistinct hblock hkind (hstatement _ hkind fun _ => rfl) []
        [([1], .body)] [([4], .plain)] (by simp only [hplan, scopeName, hkind]; rfl)
        ⟨rfl, rfl, rfl, rfl⟩
    | forStatement =>
      exact h.nested_statement ih' hdistinct hblock hkind (hstatement _ hkind fun _ => rfl) []
        [([2], .plain), ([3], .plain), ([5], .plain), ([7], .body)] []
        (by simp only [hplan, scopeName, hkind]; rfl) ⟨rfl, rfl, rfl, rfl⟩
    | switchStatement =>
      exact h.nested_statement ih' hdistinct hblock hkind (hstatement _ hkind fun _ => rfl)
        [([2], .plain)] [([5], .plain)] [] (by simp only [hplan, scopeName, hkind]; rfl)
        ⟨rfl, rfl, rfl, rfl⟩
    | _ => simp [hkind, Kind.isUniform, Kind.holdsScopes] at huniform hholds

/-- The run over a whole program. -/
theorem Node.AllFit.nested_program (h : n.AllFit) (hdistinct : n.Distinct)
    (hkind : n.kind = .program) :
    Occurrence.Nested [] (n.occurrences .plain) n.openings n.ids :=
  h.nested_uniform
    (fun _ hc _ hhands => (h.child hc).nested (hdistinct.below (child_mem_preorder hc)) hhands)
    hdistinct (by simp [isOpenBlock, hkind]) (plan_of_kind (by simp [hkind]) (by simp [hkind]) _)
    (by rw [hkind]; rfl)

end ShaderSource
