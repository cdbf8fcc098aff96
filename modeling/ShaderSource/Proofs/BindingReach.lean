import ShaderSource.Proofs.BindingPlan

/-!
# What binding comes upon

Binding goes through a tree by the plans of its nodes. Not every node is gone through: leaves that
declare names, the callees of calls, the prototypes of definitions and the headers of functions
are dealt with by a node above. But every node of a tree that fits comes up in one of these ways.
That the plans leave nothing out is checked on the table; the rest is an induction from the root
down.

## Main results

* `Node.Reaches.performs`: what is done at a node that is reached is an occurrence of the tree.
* `Node.AllFit.exists_move`: every occurrence is made at a node that is reached.
* `Kind.plan_covers`: plans deal with all parts that hold nodes.
* `Node.AllFit.met`: every node is met.
* `Node.AllFit.visited`: what no node above deals with is gone through.
-/

namespace ShaderSource

open List Node

/-! ### From the root down -/

/-- Every node but the root is right below another. -/
theorem Node.exists_parent {root m : Node} (hm : m ∈ root.preorder) (hne : m ≠ root) :
    ∃ n ∈ root.preorder, m ∈ n.children := by
  have hall : ∀ m ∈ root.preorder, m = root ∨ ∃ n ∈ root.preorder, m ∈ n.children :=
    fun m => topDown (P := fun m => m = root ∨ ∃ n ∈ root.preorder, m ∈ n.children)
      (.inl rfl) fun n hn _ c hc => .inr ⟨n, hn, hc⟩
  exact (hall m hm).resolve_left hne

theorem Node.mem_along {path : List Nat} {n m : Node} (h : m ∈ n.along path) : m ∈ n.preorder := by
  induction path generalizing n with
  | nil =>
    obtain rfl := mem_singleton.mp h
    exact m.mem_preorder_self
  | cons i path ih =>
    obtain ⟨c, hc, hm⟩ := mem_flatMap.mp h
    exact mem_preorder_of_mem_child (mem_children_iff.mpr ⟨i, hc⟩) (ih hm)

/-! ### Visits -/

/-- Going through a node in a role leads to going through another in its role. -/
inductive Node.Reaches : Node → Role → Node → Role → Prop
  | refl {n role} : Reaches n role n role
  | visit {n role m role' path c role''} :
      Reaches n role m role' → .visit path role'' ∈ m.plan role' → c ∈ m.along path →
      Reaches n role c role''

section Reaches

variable {n m : Node} {role role' : Role}

theorem Node.Reaches.mem (h : n.Reaches role m role') : m ∈ n.preorder := by
  induction h with
  | refl => exact mem_preorder_self _
  | visit _ _ hc ih => exact mem_preorder_trans ih (mem_along hc)

/-- Where a visit leads, there is all that the node there says. -/
theorem Node.Reaches.sublist (h : n.Reaches role m role') (hfit : n.AllFit) :
    (m.occurrences role').Sublist (n.occurrences role) := by
  induction h with
  | refl => exact Sublist.refl _
  | @visit m role' path c role'' hreach hvisit hc ih =>
    refine Sublist.trans ?_ ih
    rw [(hfit.below hreach.mem).occurrences_eq]
    have hmove : (m.perform (.visit path role'')).Sublist ((m.plan role').flatMap m.perform) :=
      sublist_flatten_of_mem (mem_map_of_mem hvisit)
    exact Sublist.trans (sublist_flatten_of_mem (mem_map_of_mem hc)) hmove

/-- What a move makes of a node that is reached. -/
theorem Node.Reaches.performs (h : n.Reaches role m role') (hfit : n.AllFit) {move : Move}
    (hmove : move ∈ m.plan role') {o : Occurrence} (ho : o ∈ m.perform move) :
    o ∈ n.occurrences role := by
  refine (h.sublist hfit).subset ?_
  rw [(hfit.below h.mem).occurrences_eq, mem_flatMap]
  exact ⟨move, hmove, ho⟩

end Reaches

/-! ### Every node is met -/

/-- A node of the given kind is not gone through, and a node above it deals with it. -/
inductive Node.DealtWith (root : Node) : Kind → Node → Prop
  /-- It declares a variable. -/
  | newVariable {n role path m} :
      root.Reaches .plain n role → .declare .var path ∈ n.plan role → m ∈ n.along path →
      DealtWith root .identifier m
  /-- It declares a type. -/
  | newType {n role path m} :
      root.Reaches .plain n role → .declare .type path ∈ n.plan role → m ∈ n.along path →
      DealtWith root .typeName m
  /-- It is the name of a member. -/
  | member {n m} :
      root.Reaches .plain n .member → n.kind = .quantifiedIdentifier → m ∈ n.field 0 →
      DealtWith root .identifier m
  /-- It is the callee of a plain call. -/
  | callee {n role m} :
      root.Reaches .plain n role → n.isPlainCall = true → m ∈ n.field 0 →
      DealtWith root .typeSpecifier m
  /-- It is the name in such a callee. -/
  | calleeName {n role m} :
      root.Reaches .plain n role → n.isPlainCall = true → m ∈ n.along [0, 0] →
      DealtWith root .typeName m
  /-- It is the prototype of a definition. -/
  | prototype {n role m} :
      root.Reaches .plain n role → n.kind = .functionDefinition → m ∈ n.field 0 →
      DealtWith root .functionPrototype m
  /-- It is the header of a function. -/
  | header {n role path m} :
      root.Reaches .plain n role → .function path ∈ n.plan role → m ∈ n.along (path ++ [0]) →
      DealtWith root .functionHeader m
  /-- It is the name of a function. -/
  | functionName {n role path m} :
      root.Reaches .plain n role → .function path ∈ n.plan role → m ∈ n.along (path ++ [0, 1]) →
      DealtWith root .identifier m

variable {n m : Node} {c : NameClass} {i : Nat} {path : List Nat} {k : Kind} {role role' : Role}

/-- A node comes up when the names in the tree are bound. -/
def Node.Met (root m : Node) : Prop :=
  (∃ role, root.Reaches .plain m role) ∨ root.DealtWith m.kind m

/-- The places of the parts that may hold nodes. -/
def Kind.nodeFields (k : Kind) : List Nat :=
  (List.range k.form.length).filter fun i => !((k.form[i]?.map Field.kinds).getD []).isEmpty

theorem Node.Fits.mem_nodeFields {c : Node} (h : n.Fits) (hc : c ∈ n.field i) :
    i ∈ n.kind.nodeFields := by
  have hkind := h.kind_mem_field hc
  refine mem_filter.mpr ⟨mem_range.mpr ?_, ?_⟩
  · by_contra hge
    rw [getElem?_eq_none (Nat.le_of_not_lt hge)] at hkind
    cases hkind
  · simpa using ne_nil_of_mem hkind

/-- What is right below a node is in a part for nodes. -/
theorem Node.Fits.exists_field {c : Node} (h : n.Fits) (hc : c ∈ n.children) :
    ∃ i ∈ n.kind.nodeFields, c ∈ n.field i := by
  obtain ⟨i, hi⟩ := mem_children_iff.mp hc
  exact ⟨i, h.mem_nodeFields hi, hi⟩

theorem Node.isPlainCall_iff : n.isPlainCall = true ↔
      n.kind = .functionCall ∧ (n.field 0).map kind = [.typeSpecifier] ∧
        (n.along [0, 0]).map kind = [.typeName] ∧ n.along [0, 1] = [] := by
  simp [isPlainCall, and_assoc]

theorem Node.isOpenBlock_iff :
    n.isOpenBlock = true ↔ n.kind = .interfaceBlock ∧ n.field 5 = [] := by
  simp [isOpenBlock]

theorem Node.along_append (path path' : List Nat) (n : Node) :
    n.along (path ++ path') = (n.along path).flatMap (along path') := by
  induction path generalizing n with
  | nil => simp [along]
  | cons i path ih =>
    rw [cons_append, along, along, flatMap_assoc, funext ih]

theorem Node.mem_along_snoc {c : Node} (hm : m ∈ n.along path) (hc : c ∈ m.field i) :
    c ∈ n.along (path ++ [i]) := by
  rw [along_append]
  exact mem_flatMap.mpr ⟨m, hm, by simpa [along] using hc⟩

/-- The move deals with what is in a part of the node itself. -/
def Move.covers (i : Nat) : Move → Bool
  | .visit path _ => path == [i]
  | .declare _ path => path == [i]
  | _ => false

theorem Move.covers_iff {move : Move} :
    move.covers i = true ↔ (∃ role, move = .visit [i] role) ∨ ∃ c, move = .declare c [i] := by
  cases move <;> simp [Move.covers]

/-- Plans deal with all parts that hold nodes, those apart that hold the names of functions and
of members. -/
theorem Kind.plan_covers (k : Kind) (role : Role) :
    ∀ i ∈ k.nodeFields, (k.plan role).any (Move.covers i) = true ∨
      i = 0 ∧ (k = .functionDefinition ∨ k = .functionPrototype ∨
        k = .quantifiedIdentifier ∧ role = .member) := by
  cases k <;> cases role <;> decide

/-- A function is registered where it stands, at its definition or its prototype. -/
def Move.functionFits (k : Kind) : Move → Bool
  | .function path =>
    (k == .functionDefinition && path == [0]) || (k == .functionPrototype && path == [])
  | _ => true

theorem Kind.plan_function (h : .function path ∈ k.plan role) :
    k = .functionDefinition ∧ path = [0] ∨ k = .functionPrototype ∧ path = [] := by
  have hall : (k.plan role).all (Move.functionFits k) = true := by
    cases k <;> cases role <;> decide
  simpa [Move.functionFits] using all_eq_true.mp hall _ h

/-- A name is declared by a leaf of its class. -/
def Move.declareFits (k : Kind) : Move → Bool
  | .declare c [i] => (k.form[i]?.map Field.kinds).getD [] == [c.leafKind]
  | .declare _ _ => false
  | _ => true

theorem Kind.plan_declare (h : .declare c path ∈ k.plan role) :
    ∃ i, path = [i] ∧ (k.form[i]?.map Field.kinds).getD [] = [c.leafKind] := by
  have hall : (k.plan role).all (Move.declareFits k) = true := by
    cases k <;> cases role <;> decide
  have hfits := all_eq_true.mp hall _ h
  unfold Move.declareFits at hfits
  split at hfits
  · rename_i heq
    cases heq
    exact ⟨_, rfl, by simpa using hfits⟩
  · cases hfits
  · rename_i _ hne
    exact absurd rfl (hne c path)

theorem Kind.plan_use (h : .use c ∈ k.plan role) : k = c.leafKind := by
  have hall : ∀ k : Kind, ∀ role : Role, ∀ c : NameClass, .use c ∈ k.plan role →
      k = c.leafKind := by
    intro k role c
    cases k <;> cases role <;> cases c <;> decide
  exact hall k role c h

theorem Node.plan_cases (n : Node) (role : Role) :
    n.isPlainCall = true ∧ n.plan role = [.call, .visit [2] .plain] ∨
      n.isOpenBlock = true ∧
        n.plan role = [.visit [0] .plain, .visit [3] .plain, .visit [3, 1] .plain] ∨
      n.isPlainCall = false ∧ n.isOpenBlock = false ∧ n.plan role = n.kind.plan role := by
  unfold plan
  cases hcall : n.isPlainCall with
  | true => exact .inl ⟨rfl, rfl⟩
  | false =>
    cases hblock : n.isOpenBlock with
    | true => exact .inr (.inl ⟨rfl, rfl⟩)
    | false => exact .inr (.inr ⟨rfl, rfl, rfl⟩)

/-! ### Where occurrences come from -/

/-- Plans go over nodes further down. -/
theorem Node.visit_nil_not_mem_plan (n : Node) : .visit [] role' ∉ n.plan role := by
  intro hmove
  rcases n.plan_cases role with ⟨-, hplan⟩ | ⟨-, hplan⟩ | ⟨-, -, hplan⟩
  · simp [hplan] at hmove
  · simp [hplan] at hmove
  · rw [hplan] at hmove
    have hnone : ∀ k : Kind, ∀ role role' : Role, .visit [] role' ∉ k.plan role := by
      intro k role role'
      cases k <;> cases role <;> cases role' <;> decide
    exact hnone _ _ _ hmove

/-- Only plain calls call. -/
theorem Kind.call_not_mem_plan (k : Kind) (role : Role) : .call ∉ k.plan role := by
  cases k <;> cases role <;> decide

theorem Node.call_mem_plan : .call ∈ n.plan role ↔ n.isPlainCall = true := by
  rcases n.plan_cases role with ⟨hplain, hplan⟩ | ⟨hopen, hplan⟩ | ⟨hplain, -, hplan⟩
  · simp [hplan, hplain]
  · have hkind := (isOpenBlock_iff.mp hopen).1
    simp [hplan, isPlainCall, hkind]
  · simp [hplan, hplain, n.kind.call_not_mem_plan role]

/-- What is gone through is below the node. -/
theorem Node.below_of_visit (hmove : .visit path role' ∈ n.plan role) (hm : m ∈ n.along path) :
    ∃ c ∈ n.children, m ∈ c.preorder := by
  cases path with
  | nil => exact absurd hmove n.visit_nil_not_mem_plan
  | cons j path =>
    obtain ⟨c, hc, hmc⟩ := mem_flatMap.mp hm
    exact ⟨c, mem_children_iff.mpr ⟨j, hc⟩, mem_along hmc⟩

theorem Node.Reaches.trans {q : Node} {role'' : Role} (h : n.Reaches role m role')
    (h' : m.Reaches role' q role'') : n.Reaches role q role'' := by
  induction h' with
  | refl => exact h
  | visit _ hvisit hc ih => exact ih.visit hvisit hc

/-- Every occurrence is made where binding comes by. -/
theorem Node.AllFit.exists_move (h : n.AllFit) {o : Occurrence} (ho : o ∈ n.occurrences role) :
    ∃ m role' move, n.Reaches role m role' ∧ move ∈ m.plan role' ∧
      (∀ path role'', move ≠ .visit path role'') ∧ o ∈ m.perform move := by
  induction n using strongInduction generalizing role with
  | h n ih =>
    have ho' := ho
    rw [h.occurrences_eq, mem_flatMap] at ho'
    obtain ⟨move, hmove, hperform⟩ := ho'
    by_cases hvisit : ∃ path role', move = .visit path role'
    · obtain ⟨path, role', rfl⟩ := hvisit
      obtain ⟨m, hm, hom⟩ := mem_flatMap.mp hperform
      obtain ⟨c, hc, hmc⟩ := below_of_visit hmove hm
      obtain ⟨k, role'', move, hreach, hrest⟩ :=
        ih c hc m hmc (h.below (mem_preorder_of_mem_child hc hmc)) hom
      exact ⟨k, role'', move, (Node.Reaches.refl.visit hmove hm).trans hreach, hrest⟩
    · exact ⟨n, role, move, .refl, hmove, fun path role' heq => hvisit ⟨path, role', heq⟩,
        hperform⟩

/-! ### All nodes of a tree that fits -/

section Met

variable {root n m c : Node} {role : Role}

/-- A leaf has nothing below it. -/
theorem Node.Fits.children_leaf (h : n.Fits) (hform : n.kind.form = [.token]) :
    n.children = [] := by
  obtain ⟨k, id, span, parts⟩ := n
  obtain ⟨t, rfl⟩ := h.leaf_parts hform
  simp [Part.nodes]

/-- What a plan holds besides visits and calls is planned for the kind. -/
theorem Node.mem_kind_plan {move : Move} (h : move ∈ n.plan role)
    (hvisit : ∀ path role', move ≠ .visit path role') (hcall : move ≠ .call) :
    move ∈ n.kind.plan role := by
  rcases n.plan_cases role with ⟨-, hplan⟩ | ⟨-, hplan⟩ | ⟨-, -, hplan⟩
  · rw [hplan] at h
    simp [hvisit, hcall] at h
  · rw [hplan] at h
    simp [hvisit] at h
  · rwa [hplan] at h

/-- A node in a part that takes one kind only. -/
theorem Node.AllFit.of_field (h : n.AllFit) (hm : m ∈ n.field i)
    (hform : (n.kind.form[i]?.map Field.kinds).getD [] = [k]) : m.AllFit ∧ m.kind = k := by
  have hkind := h.fits.kind_mem_field hm
  rw [hform] at hkind
  exact ⟨h.child (mem_children_iff.mpr ⟨i, hm⟩), mem_singleton.mp hkind⟩

theorem Node.AllFit.kind_declared {c : NameClass} (h : n.AllFit)
    (hmove : .declare c path ∈ n.plan role) (hm : m ∈ n.along path) :
    m.kind = c.leafKind ∧ m ∈ n.children := by
  obtain ⟨i, rfl, hform⟩ := Kind.plan_declare (mem_kind_plan hmove (by simp) (by simp))
  have hfield : m ∈ n.field i := by simpa [along] using hm
  exact ⟨(h.of_field hfield hform).2, mem_children_iff.mpr ⟨i, hfield⟩⟩

theorem Node.plan_function (hmove : .function path ∈ n.plan role) :
    n.kind = .functionDefinition ∧ path = [0] ∨ n.kind = .functionPrototype ∧ path = [] :=
  Kind.plan_function (mem_kind_plan hmove (by simp) (by simp))

theorem Node.plan_use {c : NameClass} (hmove : .use c ∈ n.plan role) : n.kind = c.leafKind :=
  Kind.plan_use (mem_kind_plan hmove (by simp) (by simp))

theorem Node.kind_callee (hplain : n.isPlainCall = true) (hm : m ∈ n.field 0) :
    m.kind = .typeSpecifier := by
  have hmem := mem_map_of_mem (f := kind) hm
  rw [(isPlainCall_iff.mp hplain).2.1] at hmem
  exact mem_singleton.mp hmem

theorem Node.kind_calleeName (hplain : n.isPlainCall = true) (hm : m ∈ n.along [0, 0]) :
    m.kind = .typeName := by
  have hmem := mem_map_of_mem (f := kind) hm
  rw [(isPlainCall_iff.mp hplain).2.2.1] at hmem
  exact mem_singleton.mp hmem

/-- The header of a function, and where it stands. -/
theorem Node.AllFit.header_cases (h : n.AllFit) (hmove : .function path ∈ n.plan role)
    (hm : m ∈ n.along (path ++ [0])) :
    m.AllFit ∧ m.kind = .functionHeader ∧ .visit (path ++ [0, 0]) .plain ∈ n.plan role := by
  have hfit : m.AllFit := h.below (mem_along hm)
  rcases plan_function hmove with ⟨hkind, rfl⟩ | ⟨hkind, rfl⟩
  · obtain ⟨prototype, hprototype, hheader⟩ : ∃ p ∈ n.field 0, m ∈ p.field 0 := by
      simpa [along] using hm
    obtain ⟨hpfit, hpkind⟩ := h.of_field hprototype (by rw [hkind]; rfl)
    exact ⟨hfit, (hpfit.of_field hheader (by rw [hpkind]; rfl)).2,
      by simp [plan_of_kind, hkind, Kind.plan]⟩
  · have hheader : m ∈ n.field 0 := by simpa [along] using hm
    exact ⟨hfit, (h.of_field hheader (by rw [hkind]; rfl)).2,
      by simp [plan_of_kind, hkind, Kind.plan]⟩

/-- The name of a function is in its header. -/
theorem Node.AllFit.functionName_cases (h : n.AllFit) (hmove : .function path ∈ n.plan role)
    (hm : m ∈ n.along (path ++ [0, 1])) : m.kind = .identifier ∧
      ∃ header ∈ n.along (path ++ [0]), header.kind = .functionHeader ∧ m ∈ header.field 1 := by
  obtain ⟨header, hheader, hname⟩ : ∃ header ∈ n.along (path ++ [0]), m ∈ header.field 1 := by
    rw [show path ++ [0, 1] = (path ++ [0]) ++ [1] by simp, along_append] at hm
    simpa [along] using hm
  obtain ⟨hfit, hkind, -⟩ := h.header_cases hmove hheader
  exact ⟨(hfit.of_field hname (by rw [hkind]; rfl)).2, header, hheader, hkind, hname⟩

/-- What a node deals with is of the kind that it is dealt with as. -/
theorem Node.DealtWith.met (hfit : root.AllFit) (h : root.DealtWith k m) : root.Met m := by
  have hkind : m.kind = k := by
    cases h with
    | newVariable h hmove hm | newType h hmove hm =>
      exact ((hfit.below h.mem).kind_declared hmove hm).1
    | member h hparent hm | prototype h hparent hm =>
      exact ((hfit.below h.mem).of_field hm (by rw [hparent]; rfl)).2
    | callee h hplain hm => exact kind_callee hplain hm
    | calleeName h hplain hm => exact kind_calleeName hplain hm
    | header h hmove hm => exact ((hfit.below h.mem).header_cases hmove hm).2.1
    | functionName h hmove hm => exact ((hfit.below h.mem).functionName_cases hmove hm).1
  exact .inr (hkind ▸ h)

/-- What is right below a node that is gone through. -/
theorem Node.Reaches.met_child (hfit : root.AllFit) (h : root.Reaches .plain n role)
    (hc : c ∈ n.children) : root.Met c := by
  have hn : n.AllFit := hfit.below h.mem
  obtain ⟨i, hfield, hi⟩ := hn.fits.exists_field hc
  have halong : c ∈ n.along [i] := by simpa [along] using hi
  have hvisit : ∀ role', .visit [i] role' ∈ n.plan role → root.Met c :=
    fun role' hmove => .inl ⟨role', h.visit hmove halong⟩
  rcases n.plan_cases role with ⟨hplain, hplan⟩ | ⟨hblock, hplan⟩ | ⟨-, -, hplan⟩
  · -- A plain call has its callee and its arguments.
    obtain ⟨hkind, -⟩ := isPlainCall_iff.mp hplain
    rw [hkind] at hfield
    rcases mem_pair.mp hfield with rfl | rfl
    · exact (Node.DealtWith.callee h hplain hi).met hfit
    · exact hvisit .plain (by simp [hplan])
  · -- An open block has qualifiers and members.
    obtain ⟨hkind, hinstance⟩ := isOpenBlock_iff.mp hblock
    have hparts : i ∈ [0, 3, 5] := by rwa [hkind] at hfield
    simp only [mem_cons, not_mem_nil, or_false] at hparts
    rcases hparts with rfl | rfl | rfl
    · exact hvisit .plain (by simp [hplan])
    · exact hvisit .plain (by simp [hplan])
    · rw [hinstance] at hi
      cases hi
  · rcases n.kind.plan_covers role i hfield with hcovers | ⟨rfl, hkind | hkind | ⟨hkind, rfl⟩⟩
    · rw [← hplan] at hcovers
      obtain ⟨move, hmove, hcovers⟩ := any_eq_true.mp hcovers
      rcases Move.covers_iff.mp hcovers with ⟨role', rfl⟩ | ⟨c', rfl⟩
      · exact hvisit role' hmove
      · cases c' with
        | var => exact (Node.DealtWith.newVariable h hmove halong).met hfit
        | type => exact (Node.DealtWith.newType h hmove halong).met hfit
    · exact (Node.DealtWith.prototype h hkind hi).met hfit
    · have hmove : .function [] ∈ n.plan role := by simp [hplan, hkind, Kind.plan]
      exact (Node.DealtWith.header h hmove halong).met hfit
    · exact (Node.DealtWith.member h hkind hi).met hfit

/-- What is right below a node that a node above deals with. -/
theorem Node.DealtWith.met_child (hfit : root.AllFit) (hn : n ∈ root.preorder)
    (h : root.DealtWith n.kind n) (hc : c ∈ n.children) : root.Met c := by
  have hnfit : n.AllFit := hfit.below hn
  have hleaf : n.kind.form = [.token] → root.Met c := fun hform => by
    rw [hnfit.fits.children_leaf hform] at hc
    cases hc
  obtain ⟨i, hfield, hi⟩ := hnfit.fits.exists_field hc
  have hstep : ∀ (path : List Nat) {m : Node}, n ∈ m.along path → c ∈ m.along (path ++ [i]) :=
    fun _ _ hm => mem_along_snoc hm hi
  generalize hkind : n.kind = k at h
  rw [hkind] at hfield hleaf
  cases h with
  | newVariable | newType | member | calleeName | functionName => exact hleaf rfl
  | @callee call role _ h hplain hm =>
    -- Below the callee there is its name, since it has no dimensions.
    have halong : c ∈ call.along [0, i] := hstep [0] (by simpa [along] using hm)
    rcases mem_pair.mp hfield with rfl | rfl
    · exact (Node.DealtWith.calleeName h hplain halong).met hfit
    · rw [(isPlainCall_iff.mp hplain).2.2.2] at halong
      cases halong
  | @prototype definition role _ h hparent hm =>
    -- Below a prototype there are its header and its parameters.
    have hmove : .function [0] ∈ definition.plan role := by
      simp [plan_of_kind, hparent, Kind.plan]
    have hvisit : .visit [0, 1] .plain ∈ definition.plan role := by
      simp [plan_of_kind, hparent, Kind.plan]
    have halong : c ∈ definition.along [0, i] := hstep [0] (by simpa [along] using hm)
    rcases mem_pair.mp hfield with rfl | rfl
    · exact (Node.DealtWith.header h hmove halong).met hfit
    · exact .inl ⟨.plain, h.visit hvisit halong⟩
  | @header function role path _ h hmove hm =>
    -- Below a header there are the type of the result and the name.
    obtain ⟨-, -, hvisit⟩ := (hfit.below h.mem).header_cases hmove hm
    have halong : c ∈ function.along (path ++ [0, i]) := by simpa using hstep _ hm
    rcases mem_pair.mp hfield with rfl | rfl
    · exact .inl ⟨.plain, h.visit hvisit halong⟩
    · exact (Node.DealtWith.functionName h hmove halong).met hfit

/-- Every node is met. -/
theorem Node.AllFit.met (hfit : root.AllFit) (hm : m ∈ root.preorder) : root.Met m := by
  refine topDown (.inl ⟨.plain, .refl⟩) (fun n hn hmet c hc => ?_) hm
  rcases hmet with ⟨role, h⟩ | h
  · exact h.met_child hfit hc
  · exact h.met_child hfit hn hc

/-- The kinds of nodes that a node above may deal with. -/
def Kind.isDealtWithAbove (k : Kind) : Bool :=
  [.identifier, .typeName, .typeSpecifier, .functionPrototype, .functionHeader].contains k

/-- Nodes of all other kinds are gone through. -/
theorem Node.AllFit.visited (hfit : root.AllFit) (hm : m ∈ root.preorder)
    (hkind : m.kind.isDealtWithAbove = false) : ∃ role, root.Reaches .plain m role := by
  rcases hfit.met hm with h | h
  · exact h
  · generalize m.kind = k at h hkind
    cases h <;> cases hkind

end Met

end ShaderSource
