import ShaderSource.Proofs.Bound
import ShaderSource.Proofs.ProgramRenaming

/-!
# Registries that miss nothing

An identifier names a variable, unless it is the name of a function in its header, the callee of a
call, or the name of a member that one only comes to through a structure or an instance of a block.
Every identifier that names a variable is registered as one, every type name as a type, and every
function where it is declared, defined and called. What is registered is also there: it is a node
of the tree, with the name it is registered under.

Members of a block without an instance need a look at the nodes above them: they come up twice,
once as members and once as variables, and only the second time they are declared.

## Main results

* `Node.AllFit.mentions_identifier`, `Node.AllFit.mentions_typeName`,
  `Node.AllFit.mentions_definition`, `Node.AllFit.mentions_prototype`: what a tree says about its
  names.
* `Program.wellRegistered_of_parse`: the registries of a program are sound and complete.
-/

namespace ShaderSource

open List Node

/-! ### What names no variable -/

/-- The identifier names something else than a variable of a scope. -/
inductive Node.NamesOther (root : Node) : Node → Prop
  /-- It names a function in its header. -/
  | function {header m : Node} :
      header ∈ root.preorder → header.kind = .functionHeader → m ∈ header.field 1 →
      NamesOther root m
  /-- It is called. -/
  | callee {call m : Node} :
      call ∈ root.preorder → call.kind = .functionCall → m ∈ call.field 0 → NamesOther root m
  /-- It names a member of a structure, or of a block with an instance. -/
  | member {s m : Node} :
      s ∈ root.preorder →
      s.kind = .structSpecifier ∨ s.kind = .interfaceBlock ∧ s.isOpenBlock = false →
      m ∈ s.along [3, 1, 0] → NamesOther root m

/-- A part for one node has one. -/
theorem Node.Fits.exists_child {n : Node} (h : n.Fits) {i : Nat} {kinds : List Kind}
    (hform : n.kind.form[i]? = some (.child kinds)) : ∃ c, n.field i = [c] := by
  have hlt : i < n.parts.length := by
    rw [h.length_parts]
    exact (List.getElem?_eq_some_iff.mp hform).1
  have hfits := h.field i (getElem?_eq_getElem hlt) hform
  obtain ⟨c, hc, -⟩ := Part.fits_child.mp hfits
  refine ⟨c, ?_⟩
  unfold Node.field
  rw [getElem?_eq_getElem hlt, hc]
  rfl

section Mentions

variable {root m : Node}

/-- Names with dimensions are members of structures and blocks, or instances of blocks. -/
theorem Kind.holds_quantifiedIdentifier (k : Kind) :
    ∀ i ∈ k.nodeFields, .quantifiedIdentifier ∈ (k.form[i]?.map Field.kinds).getD [] →
      k = .structDeclaration ∧ i = 1 ∨ k = .interfaceBlock ∧ i = 5 := by
  cases k <;> decide

/-- Members stand in structures and blocks. -/
theorem Kind.holds_structDeclaration (k : Kind) :
    ∀ i ∈ k.nodeFields, .structDeclaration ∈ (k.form[i]?.map Field.kinds).getD [] →
      (k = .structSpecifier ∨ k = .interfaceBlock) ∧ i = 3 := by
  cases k <;> decide

/-- The only type right below a call is its callee. -/
theorem Kind.typeSpecifier_in_call {i : Nat}
    (h : .typeSpecifier ∈ (Kind.functionCall.form[i]?.map Field.kinds).getD []) : i = 0 := by
  rcases i with _ | _ | _ | _ | i
  · rfl
  · exact absurd h (by decide)
  · exact absurd h (by decide)
  · exact absurd h (by decide)
  · cases h

/-- The part of a node in which another stands. -/
theorem Node.AllFit.exists_holder (hfit : root.AllFit) (hm : m ∈ root.preorder) (hne : m ≠ root) :
    ∃ n ∈ root.preorder, ∃ i ∈ n.kind.nodeFields, m ∈ n.field i ∧
      m.kind ∈ (n.kind.form[i]?.map Field.kinds).getD [] := by
  obtain ⟨n, hn, hchild⟩ := exists_parent hm hne
  obtain ⟨i, hi, hfield⟩ := (hfit.below hn).fits.exists_field hchild
  exact ⟨n, hn, i, hi, hfield, (hfit.below hn).fits.kind_mem_field hfield⟩

/-- The tree is not itself part of a list of members. -/
def Node.IsWhole (root : Node) : Prop :=
  root.kind ≠ .quantifiedIdentifier ∧ root.kind ≠ .structDeclaration

/-- A name with dimensions names a member, or is gone through as a variable. -/
theorem Node.AllFit.quantified_cases (hfit : root.AllFit) (hroot : root.IsWhole) {q : Node}
    (hq : q ∈ root.preorder) (hkind : q.kind = .quantifiedIdentifier) :
    (∀ m ∈ q.field 0, root.NamesOther m) ∨ root.Reaches .plain q .plain := by
  obtain ⟨d, hd, i, hi, hqd, hform⟩ := hfit.exists_holder hq
    (by rintro rfl; exact hroot.1 hkind)
  rw [hkind] at hform
  rcases d.kind.holds_quantifiedIdentifier i hi hform with ⟨hdkind, rfl⟩ | ⟨hdkind, rfl⟩
  · obtain ⟨s, hs, i, hi, hds, hform⟩ := hfit.exists_holder hd
      (by rintro rfl; exact hroot.2 hdkind)
    rw [hdkind] at hform
    obtain ⟨hskind, rfl⟩ := s.kind.holds_structDeclaration i hi hform
    have halong : q ∈ s.along [3, 1] := by
      simpa [along] using ⟨d, hds, hqd⟩
    have hnames : s.kind = .structSpecifier ∨ s.kind = .interfaceBlock ∧ s.isOpenBlock = false →
        ∀ m ∈ q.field 0, root.NamesOther m :=
      fun hclosed m hm => .member hs hclosed (mem_along_snoc halong hm)
    rcases hskind with hskind | hskind
    · exact .inl (hnames (.inl hskind))
    · cases hopen : s.isOpenBlock with
      | false => exact .inl (hnames (.inr ⟨hskind, hopen⟩))
      | true =>
        obtain ⟨role, hreach⟩ := hfit.visited hs (by rw [hskind]; rfl)
        have hcall : s.isPlainCall = false := by simp [isPlainCall, hskind]
        have hmove : .visit [3, 1] .plain ∈ s.plan role := by simp [plan, hcall, hopen]
        exact .inr (hreach.visit hmove halong)
  · obtain ⟨role, hreach⟩ := hfit.visited hd (by rw [hdkind]; rfl)
    have hopen : d.isOpenBlock = false := by
      simp [isOpenBlock, ne_nil_of_mem hqd]
    have hcall : d.isPlainCall = false := by simp [isPlainCall, hdkind]
    have hmove : .visit [5] .plain ∈ d.plan role := by
      simp [plan, hcall, hopen, hdkind, Kind.plan, Kind.form]
    exact .inr (hreach.visit hmove (by simpa [along] using hqd))

/-- What names no variable in a part of a tree, names none in the tree. -/
theorem Node.NamesOther.above {n : Node} (hn : n ∈ root.preorder) (h : n.NamesOther m) :
    root.NamesOther m := by
  cases h with
  | function hheader hkind hm => exact .function (mem_preorder_trans hn hheader) hkind hm
  | callee hcall hkind hm => exact .callee (mem_preorder_trans hn hcall) hkind hm
  | member hs hkind hm => exact .member (mem_preorder_trans hn hs) hkind hm

/-! ### What a tree says about its names -/

/-- Every identifier that names a variable is declared or used. -/
theorem Node.AllFit.mentions_identifier (hfit : root.AllFit) (hroot : root.IsWhole)
    (hm : m ∈ root.preorder) (hkind : m.kind = .identifier) (hnames : ¬root.NamesOther m) :
    .declareVariable m.text m.site ∈ root.occurrences .plain ∨
      .useVariable m.text m.site ∈ root.occurrences .plain := by
  rcases hfit.met hm with ⟨role, h⟩ | h
  · have hmove : .use .var ∈ m.plan role := by simp [plan_of_kind, hkind, Kind.plan]
    exact .inr (h.performs hfit hmove mem_cons_self)
  · rw [hkind] at h
    cases h with
    | newVariable h hmove hleaf => exact .inl (h.performs hfit hmove (mem_map_of_mem hleaf))
    | @member q _ h hquantified hname =>
      rcases hfit.quantified_cases hroot h.mem hquantified with hother | hreach
      · exact absurd (hother m hname) hnames
      · have hmove : .declare .var [0] ∈ q.plan .plain := by
          simp [plan_of_kind, hquantified, Kind.plan]
        refine .inl (hreach.performs hfit hmove ?_)
        exact mem_map_of_mem (by simpa [along] using hname)
    | functionName h hmove hname =>
      obtain ⟨-, header, hheader, hheaderKind, hfield⟩ :=
        (hfit.below h.mem).functionName_cases hmove hname
      have hmem := mem_preorder_trans h.mem (mem_along hheader)
      exact absurd (.function hmem hheaderKind hfield) hnames

/-- Every type name is declared, used or called. -/
theorem Node.AllFit.mentions_typeName (hfit : root.AllFit) (hm : m ∈ root.preorder)
    (hkind : m.kind = .typeName) :
    .declareType m.text m.site ∈ root.occurrences .plain ∨
      .useType m.text m.site ∈ root.occurrences .plain ∨
      ∃ call ∈ root.preorder, call.isPlainCall = true ∧ m ∈ call.along [0, 0] ∧
        ∃ span arguments,
          .call m.text ⟨m.id, span⟩ arguments call.site ∈ root.occurrences .plain := by
  rcases hfit.met hm with ⟨role, h⟩ | h
  · have hmove : .use .type ∈ m.plan role := by simp [plan_of_kind, hkind, Kind.plan]
    exact .inr (.inl (h.performs hfit hmove mem_cons_self))
  · rw [hkind] at h
    cases h with
    | newType h hmove hleaf => exact .inl (h.performs hfit hmove (mem_map_of_mem hleaf))
    | @calleeName call role _ h hplain hcallee =>
      have hmove : .call ∈ call.plan role := by simp [plan, hplain]
      obtain ⟨callee, hfield, hname⟩ : ∃ callee ∈ call.field 0, m ∈ callee.field 0 := by
        simpa [along] using hcallee
      refine .inr (.inr ⟨call, h.mem, hplain, hcallee, callee.span,
        argumentCount (call.field 2), h.performs hfit hmove ?_⟩)
      exact mem_flatMap.mpr ⟨callee, hfield, mem_map_of_mem hname⟩

/-- Every definition is said to define a function. -/
theorem Node.AllFit.mentions_definition (hfit : root.AllFit) (hm : m ∈ root.preorder)
    (hkind : m.kind = .functionDefinition) :
    ∃ name signature, .defineFunction name signature m.site ∈ root.occurrences .plain := by
  obtain ⟨role, h⟩ := hfit.visited hm (by rw [hkind]; rfl)
  have hmove : .function [0] ∈ m.plan role := by simp [plan_of_kind, hkind, Kind.plan]
  obtain ⟨prototype, hprototype⟩ : ∃ prototype, m.field 0 = [prototype] :=
    (hfit.below hm).fits.exists_child (by rw [hkind]; rfl)
  refine ⟨prototype.prototypeName, prototype.prototypeSignature, h.performs hfit hmove ?_⟩
  refine mem_flatMap.mpr ⟨prototype, by simp [along, hprototype], ?_⟩
  simp [functionOccurrence, hkind]

/-- Every prototype is said to declare a function, unless it is that of a definition. -/
theorem Node.AllFit.mentions_prototype (hfit : root.AllFit) (hm : m ∈ root.preorder)
    (hkind : m.kind = .functionPrototype) :
    (∃ name signature, .declareFunction name signature m.site ∈ root.occurrences .plain) ∨
      ∃ d ∈ root.preorder, d.kind = .functionDefinition ∧ m ∈ d.children := by
  rcases hfit.met hm with ⟨role, h⟩ | h
  · have hmove : .function [] ∈ m.plan role := by simp [plan_of_kind, hkind, Kind.plan]
    refine .inl ⟨m.prototypeName, m.prototypeSignature, h.performs hfit hmove ?_⟩
    simp [perform, along, functionOccurrence, hkind]
  · rw [hkind] at h
    cases h with
    | prototype h hparent hprototype =>
      exact .inr ⟨_, h.mem, hparent, mem_children_iff.mpr ⟨0, hprototype⟩⟩

end Mentions

/-! ### Fields of exchanged trees -/

theorem Node.field_mapChildren (f : Node → Node) (n : Node) (i : Nat) :
    (n.mapChildren f).field i = (n.field i).map f := by
  obtain ⟨k, id, span, parts⟩ := n
  simp only [mapChildren, field_mk, getElem?_map]
  cases parts[i]? with
  | none => rfl
  | some p => simp [Part.nodes_mapNodes]

section Exchange

variable {n c m root : Node} (callees : Registry NodeId NodeId)

theorem Node.field_exchangeCallees (h : n.kind ≠ .functionCall) (i : Nat) :
    (n.exchangeCallees callees).field i = (n.field i).map (exchangeCallees callees) := by
  rw [exchangeCallees_of_kind callees h, field_mapChildren]

theorem Node.isOpenBlock_exchangeCallees (n : Node) :
    (n.exchangeCallees callees).isOpenBlock = n.isOpenBlock := by
  unfold isOpenBlock
  rw [kind_exchangeCallees]
  by_cases hkind : n.kind = .interfaceBlock
  · rw [field_exchangeCallees callees (by simp [hkind]), isEmpty_map]
  · rw [beq_eq_false_iff_ne.mpr hkind, Bool.false_and, Bool.false_and]

/-- What is right below a node once its callee has been exchanged: what was there, or the new
callee in its place. -/
theorem Node.mem_children_exchangeCallees (hfit : n.AllFit)
    (h : c ∈ (n.exchangeCallees callees).children) :
    (∃ i, ∃ c' ∈ n.field i, c = c'.exchangeCallees callees ∧
        (n.isPlainCall = true → i = 0 → callees.get? n.id = none)) ∨
      n.kind = .functionCall ∧ c ∈ (n.exchangeCallees callees).field 0 ∧
        ∃ fresh span t, callees.get? n.id = some fresh ∧
          c = leaf .identifier fresh span t := by
  rcases n.exchangeCallees_cases callees with heq | ⟨id, span, callee, parts, fresh, rfl, hget, heq⟩
  · rw [heq, children_mapChildren] at h
    obtain ⟨c', hc', rfl⟩ := mem_map.mp h
    obtain ⟨i, hi⟩ := mem_children_iff.mp hc'
    refine .inl ⟨i, c', hi, rfl, fun hplain hzero => ?_⟩
    cases hget : callees.get? n.id with
    | none => rfl
    | some fresh =>
      -- The callee would be another one.
      obtain ⟨_, _, _, _, _, hn⟩ := hfit.plainCall_eq hplain
      rw [hn, exchangeCallees_call callees hget] at heq
      cases heq
  · rw [heq, children_mk, flatMap_cons, Part.nodes_map_mapNodes, mem_append] at h
    rcases h with h | h
    · obtain rfl := mem_singleton.mp h
      exact .inr ⟨rfl, by simp [heq, Part.nodes], fresh, callee.span, callee.token, hget, rfl⟩
    · obtain ⟨c', hc', rfl⟩ := mem_map.mp h
      obtain ⟨p, hp, hc'⟩ := mem_flatMap.mp hc'
      obtain ⟨i, hi⟩ := mem_iff_getElem?.mp hp
      exact .inl ⟨i + 1, c', by simpa [hi] using hc', rfl, fun _ hzero => by cases hzero⟩

/-- Names in leaves stay as they are. -/
theorem Node.Fits.exchangeCallees_eq (h : n.Fits) (hkind : n.kind.IsName) :
    n.exchangeCallees callees = n := by
  obtain ⟨t, hleaf⟩ := h.eq_leaf hkind
  rw [hleaf]
  exact exchangeCallees_leaf _ _ _ _ _

/-- As it was read, no call calls an identifier. -/
theorem Node.AsRead.kind_callee (hread : n.AsRead) (hfit : n.Fits) (hkind : n.kind = .functionCall)
    (hc : c ∈ n.field 0) : c.kind ≠ .identifier := by
  revert hread hc
  refine hfit.kind_cases hkind fun _ _ c' _ t ns ts _ t' hread hc => ?_
  obtain rfl : c = c' := by simpa [Part.nodes] using hc
  exact hread.callee rfl c _ rfl

/-- The members of a structure or of a block. -/
theorem Node.AllFit.along_members (h : n.AllFit)
    (hkind : n.kind = .structSpecifier ∨ n.kind = .interfaceBlock) (j : Nat) :
    (n.exchangeCallees callees).along [3, 1, j] =
      (n.along [3, 1, j]).map (exchangeCallees callees) := by
  have hform : (n.kind.form[3]?.map Field.kinds).getD [] = [.structDeclaration] := by
    rcases hkind with hkind | hkind <;> (rw [hkind]; rfl)
  simp only [along, flatMap_singleton', map_flatMap]
  rw [field_exchangeCallees callees (by rcases hkind with hkind | hkind <;> simp [hkind]),
    flatMap_map]
  refine flatMap_congr fun d hd => ?_
  obtain ⟨hdfit, hdkind⟩ := h.of_field hd hform
  rw [field_exchangeCallees callees (by simp [hdkind]), flatMap_map]
  refine flatMap_congr fun q hq => ?_
  obtain ⟨-, hqkind⟩ := hdfit.of_field hq (by rw [hdkind]; rfl)
  exact field_exchangeCallees callees (by simp [hqkind]) j

/-- What names no variable in a tree that was read, names none once callees are exchanged. -/
theorem Node.NamesOther.exchangeCallees (hfit : root.AllFit) (hread : root.AllRead)
    (hkind : m.kind = .identifier) (h : root.NamesOther m) :
    (root.exchangeCallees callees).NamesOther (m.exchangeCallees callees) := by
  cases h with
  | @function header _ hheader hheaderKind hm =>
    have hstays := exchangeCallees_mem callees hheader (by simp [hheaderKind])
      (by simp [hheaderKind])
    refine .function hstays (by rw [kind_exchangeCallees, hheaderKind]) ?_
    rw [field_exchangeCallees callees (by simp [hheaderKind])]
    exact mem_map_of_mem hm
  | @callee call _ hcall hcallKind hm =>
    exact absurd hkind ((hread _ hcall).kind_callee (hfit.below hcall).fits hcallKind hm)
  | @member s _ hs hskind hm =>
    have hstays := exchangeCallees_mem callees hs
      (by rcases hskind with hskind | ⟨hskind, -⟩ <;> simp [hskind])
      (by rcases hskind with hskind | ⟨hskind, -⟩ <;> simp [hskind])
    refine .member hstays ?_ ?_
    · rwa [kind_exchangeCallees, isOpenBlock_exchangeCallees]
    · rw [(hfit.below hs).along_members callees (hskind.imp_right And.left)]
      exact mem_map_of_mem hm

end Exchange

/-! ### Sound and complete registries -/

/-- The nodes of an entry: its first declaration and its references. -/
def Entry.nodes (e : Entry) : List NodeId :=
  e.declaration.toList ++ e.references

/-- The nodes of a function: its first declaration and its references. -/
def Overload.nodes (o : Overload) : List NodeId :=
  o.declaration.toList ++ o.references

/-- The node is one at which a function is registered: a definition, a prototype that is not that
of a definition, or the call of a function that is not built in. -/
inductive Node.Registrable (root : Node) : Node → Prop
  | definition {n : Node} : n.kind = .functionDefinition → Registrable root n
  | prototype {n : Node} :
      n.kind = .functionPrototype →
      (∀ d ∈ root.preorder, d.kind = .functionDefinition → n ∉ d.children) → Registrable root n
  | call {n callee : Node} :
      n.kind = .functionCall → callee ∈ n.field 0 → callee.kind = .identifier →
      Vocabulary.isBuiltinFunction callee.text = false → Registrable root n

/-- What is registered is in the tree, and what is in the tree is registered. -/
structure Program.WellRegistered (p : Program) : Prop where
  /-- The nodes of a variable are identifiers with its name. -/
  variableNodes : ∀ s ∈ p.scopes.scopes, ∀ name e, (name, e) ∈ s.vars → ∀ i ∈ e.nodes,
    ∃ n ∈ p.root.preorder, n.id = i ∧ n.kind = .identifier ∧ n.text = name
  /-- The nodes of a function are definitions, prototypes and calls with its name. -/
  functionNodes : ∀ s ∈ p.scopes.scopes, ∀ name os, (name, os) ∈ s.functions →
    ∀ key o, (key, o) ∈ os → ∀ i ∈ o.nodes,
      ∃ n ∈ p.root.preorder, n.id = i ∧ n.NamesFunction name ∧
        (n.kind = .functionDefinition ∨ n.kind = .functionPrototype ∨ n.kind = .functionCall)
  /-- Every identifier that names a variable is registered, names of built-in ones apart. -/
  everyVariable : ∀ n ∈ p.root.preorder, n.kind = .identifier →
    Vocabulary.isBuiltinVariable n.text = false → ¬p.root.NamesOther n →
      ∃ s ∈ p.scopes.scopes, ∃ e, (n.text, e) ∈ s.vars ∧ n.id ∈ e.references
  /-- Every type name is registered. -/
  everyType : ∀ n ∈ p.root.preorder, n.kind = .typeName →
    ∃ s ∈ p.scopes.scopes, ∃ e, (n.text, e) ∈ s.types ∧ n.id ∈ e.references
  /-- Every function is registered in the outermost scope. -/
  everyFunction : ∀ n ∈ p.root.preorder, p.root.Registrable n →
    ∃ name, n.NamesFunction name ∧
      ∃ os, (name, os) ∈ p.scopes.root.functions ∧ ∃ o ∈ os, n.id ∈ o.2.references

namespace Program.BoundAs

variable {p : Program} {tree n : Node} {last : NodeId} {b : Names} (h : p.BoundAs tree last b)

include h

/-- A node of the tree is one that was read, or an identifier that was made for a call. -/
theorem mem_root_cases (hn : n ∈ p.root.preorder) :
    (∃ m ∈ tree.preorder, n = m.exchangeCallees b.callees) ∨
      n.kind = .identifier ∧ (∃ site, b.callees.get? site = some n.id) ∧
        ∃ call ∈ p.root.preorder, call.kind = .functionCall ∧ n ∈ call.field 0 := by
  rcases h.origin hn with hold | ⟨site, fresh, span, t, hget, heq⟩
  · exact .inl hold
  · -- Something is above a new callee, and it is a call: else the callee would not be new.
    right
    obtain ⟨parent, hparent, hchild⟩ := exists_parent hn (by
      rintro rfl
      have hkind := h.kind_root
      rw [heq] at hkind
      cases hkind)
    rcases h.origin hparent with ⟨m, hm, rfl⟩ | ⟨_, _, _, _, -, rfl⟩
    · rcases mem_children_exchangeCallees b.callees (h.fit.below hm) hchild with
        ⟨i, c, hc, rfl, -⟩ | ⟨hkind, hfield, -⟩
      · have hid : (c.exchangeCallees b.callees).id = fresh := by rw [heq]; rfl
        rw [id_exchangeCallees] at hid
        have hids : c.id ∈ tree.ids := id_mem_ids (mem_preorder_trans hm
          (mem_preorder_of_mem_child (mem_children_iff.mpr ⟨i, hc⟩)
            c.mem_preorder_self))
        exact absurd (hid ▸ hids) (h.fresh hget)
      · exact ⟨by rw [heq]; rfl, ⟨site, by rw [heq]; exact hget⟩, _, hparent,
          by rw [kind_exchangeCallees, hkind], hfield⟩
    · simp [leaf, Part.nodes] at hchild

/-- A node of the tree is one that was read, or names no variable. -/
theorem mem_root (hn : n ∈ p.root.preorder) :
    (∃ m ∈ tree.preorder, n = m.exchangeCallees b.callees) ∨ p.root.NamesOther n :=
  (h.mem_root_cases hn).imp_right fun ⟨_, _, _, hcall, hkind, hfield⟩ => .callee hcall hkind hfield

/-- What is above a node that stays in the tree stays there too, and if it is a call, the node is
not its callee or the callee is not exchanged. -/
theorem holder_stays {c : Node} (hn : n ∈ tree.preorder) {i : Nat} (hc : c ∈ n.field i)
    (hkind : c.kind ≠ .program) (hstays : c.exchangeCallees b.callees ∈ p.root.preorder) :
    n.exchangeCallees b.callees ∈ p.root.preorder ∧
      (n.isPlainCall = true → i = 0 → b.callees.get? n.id = none) := by
  have hchild : c ∈ n.children := mem_children_iff.mpr ⟨i, hc⟩
  have hmem : c ∈ tree.preorder :=
    mem_preorder_of_mem_children hn hchild
  obtain ⟨parent, hparent, hbelow⟩ := exists_parent hstays (fun heq => hkind (by
    rw [← kind_exchangeCallees b.callees c, heq, h.kind_root]))
  rcases h.origin hparent with ⟨m, hm, rfl⟩ | ⟨_, _, _, _, -, rfl⟩
  · rcases mem_children_exchangeCallees b.callees (h.fit.below hm) hbelow with
      ⟨j, c', hc', heq, hcallee⟩ | ⟨-, -, fresh, span, t, hget, heq⟩
    · have hid : c.id = c'.id := by
        rw [← id_exchangeCallees b.callees c, heq, id_exchangeCallees]
      have hchild' : c' ∈ m.children := mem_children_iff.mpr ⟨j, hc'⟩
      obtain rfl : n = m := Distinct.parent_unique h.ids.nodup hn hm hchild hchild' hid
      obtain rfl : c = c' := Distinct.eq_of_id h.ids.nodup hmem
        (mem_preorder_of_mem_children hn hchild')
        hid
      refine ⟨hparent, fun hplain hzero => hcallee hplain ?_⟩
      subst hzero
      -- Arguments are no types.
      have hform := (h.fit.below hn).fits.kind_mem_field hc'
      rw [kind_callee hplain hc, (isPlainCall_iff.mp hplain).1] at hform
      exact Kind.typeSpecifier_in_call hform
    · have hid : (c.exchangeCallees b.callees).id = fresh := by rw [heq]; rfl
      rw [id_exchangeCallees] at hid
      exact absurd (hid ▸ id_mem_ids hmem) (h.fresh hget)
  · simp [leaf, Part.nodes] at hbelow

/-- The name of a call of which the callee is exchanged does not stay in the tree. -/
theorem callee_stays {call m : Node} (hcall : call ∈ tree.preorder)
    (hplain : call.isPlainCall = true) (hm : m ∈ call.along [0, 0])
    (hstays : m.exchangeCallees b.callees ∈ p.root.preorder) : b.callees.get? call.id = none := by
  have hname : m.kind = .typeName := kind_calleeName hplain hm
  obtain ⟨callee, hcallee, hm⟩ : ∃ callee ∈ call.field 0, m ∈ callee.field 0 := by
    simpa [along] using hm
  have hkind : callee.kind = .typeSpecifier := kind_callee hplain hcallee
  have hmem : callee ∈ tree.preorder := mem_preorder_trans hcall
    (mem_preorder_of_mem_child (mem_children_iff.mpr ⟨0, hcallee⟩)
      callee.mem_preorder_self)
  obtain ⟨hspecifier, -⟩ := h.holder_stays hmem hm (by simp [hname]) hstays
  exact (h.holder_stays hcall hcallee (by simp [hkind]) hspecifier).2 hplain rfl

/-- An identifier that names a variable is registered. -/
theorem registers_variable (hn : n ∈ p.root.preorder) (hkind : n.kind = .identifier)
    (hbuiltin : Vocabulary.isBuiltinVariable n.text = false) (hnames : ¬p.root.NamesOther n) :
    p.scopes.Refers .vars n.text n.id := by
  obtain ⟨m, hm, rfl⟩ := (h.mem_root hn).resolve_right hnames
  rw [kind_exchangeCallees] at hkind
  have hsame := (h.fit.below hm).fits.exchangeCallees_eq b.callees (.inl hkind)
  have hnames' : ¬tree.NamesOther m := fun hother => hnames (by
    rw [h.root]
    exact hother.exchangeCallees b.callees h.fit h.read hkind)
  rw [hsame] at hbuiltin ⊢
  have hwhole : tree.IsWhole := by simp [IsWhole, h.kind]
  exact h.refers_variable (h.fit.mentions_identifier hwhole hm hkind hnames') hbuiltin

/-- A type name is registered. -/
theorem registers_type (hn : n ∈ p.root.preorder) (hkind : n.kind = .typeName) :
    p.scopes.Refers .types n.text n.id := by
  rcases h.origin hn with ⟨m, hm, rfl⟩ | ⟨_, _, _, _, -, rfl⟩
  · rw [kind_exchangeCallees] at hkind
    rw [(h.fit.below hm).fits.exchangeCallees_eq b.callees (.inr hkind)]
    rcases h.fit.mentions_typeName hm hkind with
      ho | ho | ⟨call, hcall, hplain, hname, span, arguments, ho⟩
    · exact h.refers_type (.inl ho)
    · exact h.refers_type (.inr ho)
    · exact h.refers_call ho (h.callee_stays hcall hplain hname hn)
  · cases hkind

/-- A definition, and a prototype that is not that of a definition, are registered. -/
theorem registers_function (hn : n ∈ tree.preorder)
    (hkind : n.kind = .functionDefinition ∨ n.kind = .functionPrototype ∧
      ∀ d ∈ tree.preorder, d.kind = .functionDefinition → n ∉ d.children) :
    ∃ name, (n.exchangeCallees b.callees).NamesFunction name ∧
      p.scopes.root.Refers .functions name n.id := by
  have hcall : n.kind ≠ .functionCall := by
    rcases hkind with hkind | ⟨hkind, -⟩ <;> simp [hkind]
  have hnamed : ∀ {m : Node} {name : String}, m ∈ tree.preorder → m.NamesFunction name →
      m.id = n.id → (n.exchangeCallees b.callees).NamesFunction name := by
    intro m name hm hname hid
    obtain rfl : m = n := Distinct.eq_of_id h.ids.nodup hm hn hid
    exact hname.exchangeCallees b.callees hcall
  rcases hkind with hkind | ⟨hkind, hnone⟩
  · obtain ⟨name, signature, ho⟩ := h.fit.mentions_definition hn hkind
    refine ⟨name, ?_, h.refers_function (.inr ho)⟩
    generalize hsite : n.site = site at ho
    cases occurrence_about h.fit ho with
    | defineFunction hd _ hname => exact hnamed hd hname (congrArg Site.id hsite).symm
  · rcases h.fit.mentions_prototype hn hkind with ⟨name, signature, ho⟩ | ⟨d, hd, hdkind, hmem⟩
    · refine ⟨name, ?_, h.refers_function (.inl ho)⟩
      generalize hsite : n.site = site at ho
      cases occurrence_about h.fit ho with
      | declareFunction hd _ hname => exact hnamed hd hname (congrArg Site.id hsite).symm
    · exact absurd hmem (hnone d hd hdkind)

/-- The call of a function that is not built in is registered. -/
theorem registers_call {callee : Node} (hn : n ∈ tree.preorder) (hkind : n.kind = .functionCall)
    (hcallee : callee ∈ (n.exchangeCallees b.callees).field 0)
    (hidentifier : callee.kind = .identifier)
    (hbuiltin : Vocabulary.isBuiltinFunction callee.text = false) :
    ∃ name, (n.exchangeCallees b.callees).NamesFunction name ∧
      p.scopes.root.Refers .functions name n.id := by
  rcases n.exchangeCallees_cases b.callees with heq | ⟨id, span, old, parts, fresh, rfl, hget, heq⟩
  · rw [heq, field_mapChildren] at hcallee
    obtain ⟨c, hc, rfl⟩ := mem_map.mp hcallee
    rw [kind_exchangeCallees] at hidentifier
    exact absurd hidentifier ((h.read _ hn).kind_callee (h.fit.below hn).fits hkind hc)
  · obtain ⟨name', callee', arguments, site, ho, hsite, hrefers⟩ := h.refers_exchanged hget
    cases occurrence_about h.fit ho with
    | @call id' span' callee' parts' _ hcall =>
      obtain rfl : id' = id := hsite
      have hsame := Distinct.eq_of_id h.ids.nodup hcall hn rfl
      obtain ⟨_, span, _, _, t⟩ := old
      cases callee'
      cases hsame
      rw [heq] at hcallee ⊢
      obtain rfl : callee = leaf .identifier fresh span t := by
        simpa [Part.nodes, leaf] using hcallee
      exact ⟨t.text, ⟨fresh, span, t, .call, rfl⟩, hrefers hbuiltin⟩

/-- Every function is registered where it is defined, declared and called. -/
theorem registers_registrable (hn : n ∈ p.root.preorder) (hregistrable : p.root.Registrable n) :
    ∃ name, n.NamesFunction name ∧ p.scopes.root.Refers .functions name n.id := by
  rcases h.origin hn with ⟨m, hm, rfl⟩ | ⟨_, _, _, _, -, rfl⟩
  · rw [id_exchangeCallees]
    cases hregistrable with
    | definition hkind =>
      rw [kind_exchangeCallees] at hkind
      exact h.registers_function hm (.inl hkind)
    | prototype hkind hnone =>
      rw [kind_exchangeCallees] at hkind
      refine h.registers_function hm (.inr ⟨hkind, fun d hd hdkind hmem => ?_⟩)
      have hstays := exchangeCallees_mem b.callees hd (by simp [hdkind]) (by simp [hdkind])
      rw [← h.root] at hstays
      refine hnone _ hstays (by rw [kind_exchangeCallees, hdkind]) ?_
      rw [exchangeCallees_of_kind b.callees (by simp [hdkind]), children_mapChildren]
      exact mem_map_of_mem hmem
    | call hkind hcallee hidentifier hbuiltin =>
      rw [kind_exchangeCallees] at hkind
      exact h.registers_call hm hkind hcallee hidentifier hbuiltin
  · cases hregistrable with
    | definition hkind | prototype hkind | call hkind => cases hkind

end Program.BoundAs

/-- **Registries are sound and miss nothing**: whatever was read, its variables and functions are
registered with nodes of their names, and every identifier that names a variable, every type name
and every function is registered. -/
theorem Program.wellRegistered_of_parse {text : String} {options : Options} {p : Program}
    (hp : Program.parse text options = .ok p) : p.WellRegistered := by
  obtain ⟨tree, last, b, h⟩ := Program.boundAs hp
  have hmem : ∀ {declaration : Option NodeId} {references : List NodeId} {i : NodeId},
      (∀ j ∈ declaration, j ∈ references) → i ∈ declaration.toList ++ references →
      i ∈ references := by
    intro declaration references i hsettled hi
    rcases mem_append.mp hi with hi | hi
    · exact hsettled i (Option.mem_toList.mp hi)
    · exact hi
  refine ⟨?_, ?_, ?_, ?_, ?_⟩
  · intro s hs name e he i hi
    have href : s.Refers .vars name i := Scope.refers_entries (c := .var).mpr
      ⟨e, he, hmem ((h.settled s hs).entries .var _ he) hi⟩
    obtain ⟨n, hn, hid, id, span, t, hbears, rfl⟩ := h.bears (by simp) ⟨s, hs, href⟩
    cases hbears with
    | ofVariable => exact ⟨_, hn, hid, rfl, rfl⟩
  · intro s hs name os hos key o ho i hi
    have href : s.Refers .functions name i := Scope.refers_functions.mpr
      ⟨os, hos, mem_flatMap.mpr
        ⟨(key, o), ho, hmem ((h.settled s hs).functions _ hos _ ho) hi⟩⟩
    obtain ⟨n, hn, hid, id, span, t, hbears, rfl⟩ := h.bears (by simp) ⟨s, hs, href⟩
    cases hbears with
    | ofFunction hnamed hheader _ =>
      refine ⟨n, hn, hid, ⟨id, span, t, hnamed, rfl⟩, ?_⟩
      rcases hnamed.kind with hkind | hkind | hkind | hkind
      · exact absurd hkind hheader
      · exact .inr (.inl hkind)
      · exact .inl hkind
      · exact .inr (.inr hkind)
  · intro n hn hkind hbuiltin hnames
    obtain ⟨s, hs, href⟩ := h.registers_variable hn hkind hbuiltin hnames
    obtain ⟨e, he, hi⟩ := (Scope.refers_entries (c := .var)).mp href
    exact ⟨s, hs, e, he, hi⟩
  · intro n hn hkind
    obtain ⟨s, hs, href⟩ := h.registers_type hn hkind
    obtain ⟨e, he, hi⟩ := (Scope.refers_entries (c := .type)).mp href
    exact ⟨s, hs, e, he, hi⟩
  · intro n hn hregistrable
    obtain ⟨name, hname, href⟩ := h.registers_registrable hn hregistrable
    obtain ⟨os, hos, hi⟩ := Scope.refers_functions.mp href
    obtain ⟨o, ho, hi⟩ := mem_flatMap.mp hi
    exact ⟨name, hname, os, hos, o, ho, hi⟩

/-- The names of built-in variables and functions and of members are not registered, and the
members of a block without an instance are. -/
theorem Program.wellRegistered_of_parse_blocks :
    ∃ p,
      Program.parse ("struct S \x7b int m; \x7d; uniform B \x7b float a[n]; \x7d; " ++
        "uniform C \x7b int k; \x7d c; " ++
        "float f(S s) \x7b return sin(gl_x) + g(S(1), a[c.k]); \x7d") Options.default = .ok p ∧
      p.scopes.listing .vars =
        [(0, "n", 24), (0, "n", 24), (0, "a", 22), (0, "a", 62), (0, "c", 35), (0, "c", 65),
          (1, "s", 46)] ∧
      p.scopes.listing .types = [(0, "S", 7), (0, "S", 45), (0, "S", 59)] ∧
      p.scopes.listing .functions = [(0, "f", 36), (0, "g", 54)] ∧
      p.WellRegistered := by
  refine Program.exists_of_parse (fun p hparse (h : _ ∧ _ ∧ _) =>
    ⟨hparse, h.1, h.2.1, h.2.2, Program.wellRegistered_of_parse hparse⟩) ?_
  decide +kernel

end ShaderSource
