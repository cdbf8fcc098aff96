import ShaderSource.Proofs.Edited
import ShaderSource.Proofs.ProgramRenaming

/-!
# Renaming edited trees

The walk of a renaming passes a new name on from a reference to the leaf where its name stands, and
finds the leaf by its identity. In a tree as it was read no two nodes have the same identity. In an
edited tree the detached nodes do: a name that waits for a detached leaf is taken by the first
detached node that the walk comes to. References are never detached, and at a variable or a type the
leaf is the reference itself, so this happens to functions only: the callee may be a type around the
name, and a definition has its result before its name.

If a detached node that is no leaf takes the name, nothing is renamed; if it is a leaf, then one
that has nothing to do with the reference. In both cases no name is left waiting, and the renaming
succeeds.

## Main results

* `Node.Admits.reaches`: the walk comes to each reference.
* `Node.Admits.delivers`: which name comes to the leaf of a function.
* `Program.Edited.named_of_rename`: which names the references have after a renaming that succeeds.
-/

namespace ShaderSource

open List Node Option Registry Rename

variable {τ : Type} {target : RenameTarget} {mangle : Mangle τ} {R : NodeId → Option String}
  {s s' : RenameState τ}

/-! ### The nodes before a name -/

/-- The nodes that a walk meets at a reference before it comes to the name. Only functions have such
nodes. -/
def Node.beforeName : Node → List Node
  | .mk .functionDefinition id span (.child prototype :: parts) =>
    .mk .functionDefinition id span (.child prototype :: parts) :: prototype.beforeName
  | .mk .functionPrototype id span (.child header :: parts) =>
    .mk .functionPrototype id span (.child header :: parts) :: header.beforeName
  | .mk .functionHeader id span (.child result :: .child name :: parts) =>
    .mk .functionHeader id span (.child result :: .child name :: parts) ::
      (result.preorder ++ name.beforeName)
  | .mk .functionCall id span (.child (.mk .typeSpecifier id' span' parts') :: parts) =>
    [.mk .functionCall id span (.child (.mk .typeSpecifier id' span' parts') :: parts),
      .mk .typeSpecifier id' span' parts']
  | .mk .functionCall id span (.child callee :: parts) =>
    [.mk .functionCall id span (.child callee :: parts)]
  | _ => []

/-- What is to be the name of the reference goes to another node: the leaf is detached, and so is a
node that is met before it. -/
def Node.losesName (n leaf : Node) : Bool :=
  leaf.id == NodeId.detached && n.beforeName.any fun m => m.id == NodeId.detached

/-- The node leads to the leaf where the name of a function stands. -/
inductive Node.LeadsTo : Node → Node → Prop
  | name {id span parts} :
      LeadsTo (.mk .identifier id span parts) (.mk .identifier id span parts)
  | definition {id span prototype parts leaf} : LeadsTo prototype leaf →
      LeadsTo (.mk .functionDefinition id span (.child prototype :: parts)) leaf
  | prototype {id span header parts leaf} : LeadsTo header leaf →
      LeadsTo (.mk .functionPrototype id span (.child header :: parts)) leaf
  | header {id span result name parts leaf} : LeadsTo name leaf →
      LeadsTo (.mk .functionHeader id span (.child result :: .child name :: parts)) leaf
  | call {id span id' span' parts' parts} :
      LeadsTo (.mk .functionCall id span (.child (.mk .identifier id' span' parts') :: parts))
        (.mk .identifier id' span' parts')
  | typeCall {id span id' span' id'' span'' parts' parts} :
      LeadsTo
        (.mk .functionCall id span
          (.child (.mk .typeSpecifier id' span'
            [.child (.mk .typeName id'' span'' parts'), .list []]) :: parts))
        (.mk .typeName id'' span'' parts')

variable {n leaf root m n' c : Node} {new : Option String} {ancestors : List Node}
  {kind : Option SlotKind} {o : Option Node} {name x : String} {id : NodeId} {span : Option Span}
  {scope : Scope}

theorem Node.leadsTo_of_namedLeaf (h : n.namedLeaf .functions = .ok leaf) : n.LeadsTo leaf := by
  induction n using induction with
  | h n ih =>
    unfold namedLeaf at h
    split at h
    case h_1 =>
      cases h
      exact .name
    case h_10 => exact .definition (ih _ (by simp [Part.nodes]) h)
    case h_11 => exact .prototype (ih _ (by simp [Part.nodes]) h)
    case h_12 => exact .header (ih _ (by simp [Part.nodes]) h)
    case h_13 =>
      cases h
      exact .call
    case h_14 =>
      cases h
      exact .typeCall
    all_goals cases h

theorem Node.LeadsTo.namedLeaf (h : n.LeadsTo leaf) : n.namedLeaf .functions = .ok leaf := by
  induction h with
  | name | call | typeCall => simp [Node.namedLeaf]
  | definition _ ih | prototype _ ih | header _ ih => rw [Node.namedLeaf, if_pos rfl, ih]

/-- In pre-order the leaf comes right after the nodes before the name. -/
theorem Node.LeadsTo.preorder (h : n.LeadsTo leaf) :
    ∃ after, n.preorder = n.beforeName ++ leaf :: after := by
  induction h with
  | name => exact ⟨_, preorder_eq _⟩
  | definition _ ih | prototype _ ih | header _ ih =>
    obtain ⟨after, hafter⟩ := ih
    simp [Node.preorder, Part.preorders, Part.preorder, Node.beforeName, hafter]
  | call | typeCall =>
    simp [Node.preorder, Part.preorders, Part.preorder, Node.beforeName]

theorem Node.LeadsTo.mem (h : n.LeadsTo leaf) : leaf ∈ n.preorder := by
  obtain ⟨after, hafter⟩ := h.preorder
  rw [hafter]
  exact mem_append_right _ mem_cons_self

theorem Node.beforeName_of_isName (h : n.kind.IsName) : n.beforeName = [] := by
  obtain ⟨kind, id, span, parts⟩ := n
  rcases h with h | h <;> (cases h; rfl)

/-- A node that leads to a leaf and is not the leaf comes first on the way. -/
theorem Node.LeadsTo.beforeName_eq (h : n.LeadsTo leaf) (hkind : ¬n.kind.IsName) :
    n.beforeName = n :: n.beforeName.tail := by
  cases h with
  | name => exact absurd (.inl rfl) hkind
  | definition | prototype | header | call | typeCall => simp [beforeName]

/-! ### Trees in which references are found -/

/-- What a tree is like in which the walk of a renaming comes by all references: nodes that are not
detached are there once, below detached nodes there are only such, and references are leaves or, in
a renaming of functions, nodes that lead to a name, where none is on the way of another. -/
structure Node.Admits (root : Node) (target : RenameTarget) (R : NodeId → Option String) :
    Prop where
  names : root.NamesAreLeaves
  once : root.attached.Nodup
  detached : ∀ m ∈ root.preorder, m.id = NodeId.detached → ∀ c ∈ m.children,
    c.id = NodeId.detached
  listed : R NodeId.detached = none
  leaves : target ≠ .functions → ∀ m ∈ root.preorder, R m.id ≠ none → m.kind.IsName
  functions : target = .functions → ∀ m ∈ root.preorder, R m.id ≠ none →
    m.kind = .functionDefinition ∨ m.kind = .functionPrototype ∨ m.kind = .functionCall
  onWay : target = .functions → ∀ m ∈ root.preorder,
    m.kind = .functionDefinition ∨ m.kind = .functionPrototype ∨ m.kind = .functionHeader →
    ∀ c ∈ m.children, R c.id = none

namespace Node.Admits

variable {root n m : Node} (h : root.Admits target R)

include h

/-- Below a detached node all nodes are detached. -/
theorem detached_below (hn : n ∈ root.preorder) (hid : n.id = NodeId.detached)
    (hm : m ∈ n.preorder) : m.id = NodeId.detached :=
  topDown hid (fun k hk hid c hc => h.detached k (mem_preorder_trans hn hk) hid c hc) hm

/-- Among the nodes that are not detached each is at one place only. -/
theorem pairwise (l : List Node) (hl : l.Sublist root.preorder)
    (hne : ∀ n ∈ l, n.id ≠ NodeId.detached) : l.Pairwise fun n m => n.id ≠ m.id := by
  have hfilter : (root.preorder.filter fun n => n.id ≠ NodeId.detached).Pairwise
      fun n m => n.id ≠ m.id := by
    have honce := h.once
    rw [attached, Node.ids, List.filter_map] at honce
    exact pairwise_map.mp honce
  refine hfilter.sublist ?_
  have hself : l.filter (fun n => n.id ≠ NodeId.detached) = l := by
    rw [filter_eq_self]
    intro n hn
    simpa using hne n hn
  rw [← hself]
  exact hl.filter _

theorem eq_of_id (hn : n ∈ root.preorder) (hm : m ∈ root.preorder) (hid : n.id = m.id)
    (hne : n.id ≠ NodeId.detached) : n = m := by
  have honce := h.once
  rw [attached, Node.ids, List.filter_map] at honce
  refine inj_on_of_nodup_map honce ?_ ?_ hid
  · exact mem_filter.mpr ⟨hn, by simpa using hne⟩
  · exact mem_filter.mpr ⟨hm, by simpa [← hid] using hne⟩

/-- If a name is pending for a node, the node is a leaf or detached. -/
theorem childless (hn : n ∈ root.preorder) (hs : Rename.Awaits root s)
    {new : String} (hpending : s.pending.get? n.id = some new) (hne : n.id ≠ NodeId.detached) :
    n.kind.IsName := by
  obtain ⟨m, hm, hid, hkind⟩ := hs _ (mem_of_get? hpending)
  rw [← h.eq_of_id hm hn hid (hid ▸ hne)]
  exact hkind

theorem passable : root.Passable R := by
  intro n hn m hm hkind hid c hc
  obtain ⟨d, hd, hcd⟩ := mem_flatMap.mp hc
  by_cases hne : n.id = NodeId.detached
  · rw [hne]
    exact ⟨h.detached_below hn hne (mem_preorder_of_mem_child hd hcd), h.listed⟩
  · obtain rfl := h.eq_of_id hm hn hid (hid ▸ hne)
    obtain ⟨t, ht⟩ := h.names m hm hkind
    rw [ht, children_leaf] at hd
    cases hd

end Node.Admits

/-! ### The walk and the pass -/

section Walk

variable {root n : Node} {ancestors : List Node}

/-- The walk comes to each reference, after a pass over the nodes before it, and what becomes of the
reference is in the tree. -/
theorem Node.Admits.reaches (h : root.Admits target R) (hn : n ∈ root.preorder)
    (hs : Rename.Steady root R s)
    (hbecomes : n.Becomes (visitor target mangle) ancestors kind s (some n') s')
    {before after : List Node} (hsplit : n.preorder = before ++ c :: after) (hc : R c.id ≠ none) :
    ∃ ancestors' kind' s₁ c' s₂, Rename.Passes target mangle s before s₁ ∧
      c.Becomes (visitor target mangle) ancestors' kind' s₁ (some c') s₂ ∧
      c' ∈ n'.preorder := by
  induction n using induction generalizing ancestors kind s s' n' before after with
  | h n ih =>
    rw [preorder_eq] at hsplit
    cases before with
    | nil =>
      obtain ⟨rfl, -⟩ := cons.inj hsplit
      exact ⟨_, _, s, n', s', .nil, hbecomes, n'.mem_preorder_self⟩
    | cons _ before =>
      obtain ⟨rfl, hbelow⟩ := cons.inj hsplit
      obtain ⟨new, s₁, hmeet, ⟨name, rfl, -⟩ | ⟨rfl, qs, ho, hqs⟩⟩ :=
        becomes_cases hbecomes
      · have hmem : c ∈ n.children.flatMap preorder := by
          rw [hbelow]
          exact mem_append_right _ mem_cons_self
        obtain ⟨⟨m, hm, hkind, hid⟩, -⟩ := hs.taken hn hmeet
        obtain ⟨hsame, hnone⟩ := h.passable n hn m hm hkind hid c hmem
        exact absurd (hsame ▸ hnone) hc
      · -- Along the nodes right below, up to the one that holds the reference.
        have hlist : ∀ {K s s'} {ns : List Node} {os : List (Option Node)},
            AllBecome (visitor target mangle) (n :: ancestors) K s ns os s' →
            (∀ m ∈ ns, m ∈ n.children) → Rename.Steady root R s → ∀ before,
            ns.flatMap preorder = before ++ c :: after →
            ∃ ancestors' kind' s₁ c' s₂, Rename.Passes target mangle s before s₁ ∧
              c.Becomes (visitor target mangle) ancestors' kind' s₁ (some c') s₂ ∧
              c' ∈ (os.filterMap fun o => o).flatMap preorder := by
          intro K s s' ns os hos hns hs
          induction hos with
          | nil =>
            intro before heq
            cases before <;> cases heq
          | @cons s m o s₁ ns os s₂ _ _ hm _ ihns =>
            intro before heq
            rw [forall_mem_cons] at hns
            have hmem := mem_preorder_of_mem_children hn hns.1
            have hpass := h.passable.passes hmem hs hm
            have hs₁ := hs.passes (fun l hl => mem_preorder_trans hmem hl) hpass
            obtain ⟨m', rfl⟩ := becomes_some hm
            have hlater : ∀ before, ns.flatMap preorder = before ++ c :: after →
                ∃ ancestors' kind' s₃ c' s₂,
                  Rename.Passes target mangle s (m.preorder ++ before) s₃ ∧
                  c.Becomes (visitor target mangle) ancestors' kind' s₃ (some c') s₂ ∧
                  c' ∈ ((some m' :: os).filterMap fun o => o).flatMap preorder := by
              intro before heq
              obtain ⟨anc, k, s₃, c', s₂, hbefore, hc', hmem'⟩ := ihns hns.2 hs₁ before heq
              exact ⟨anc, k, s₃, c', s₂, hpass.append hbefore, hc',
                mem_append_right _ hmem'⟩
            rw [flatMap_cons, append_eq_append_iff] at heq
            rcases heq with ⟨rest, rfl, heq⟩ | ⟨rest, hfirst, heq⟩
            · exact hlater rest heq
            · cases rest with
              | nil =>
                rw [append_nil] at hfirst
                simpa [hfirst] using hlater [] heq.symm
              | cons _ rest =>
                obtain ⟨rfl, -⟩ := cons.inj heq
                obtain ⟨anc, k, s₃, c', s₂, hbefore, hc', hmem'⟩ :=
                  ih m hns.1 hmem hs hm hfirst
                exact ⟨anc, k, s₃, c', s₂, hbefore, hc', mem_append_left _ hmem'⟩
        obtain ⟨os, hos, hnodes, -⟩ := hqs.nodes
        rw [← n.children_eq] at hos
        have hs₁ := hs.meet hn hmeet
        have hkept := (h.passable.passes_all
          (fun m hm => mem_preorder_of_mem_children hn hm) hs₁ hos).2
        obtain ⟨anc, k, s₂, c', s₃, hpass, hc', hmem⟩ :=
          hlist hos (fun _ hm => hm) hs₁ before hbelow
        refine ⟨anc, k, s₂, c', s₃, passes_cons_iff.mpr ⟨_, _, hmeet, hpass⟩, hc', ?_⟩
        rw [some.inj ho, preorder_eq, children_mk, hnodes hkept]
        exact mem_cons_of_mem _ hmem

end Walk

/-! ### The way to the name of a function -/

/-- The leaf with the name that comes to it, if one does. -/
def Node.called (n : Node) : Option String → Node
  | none => n
  | some name => n.withName name

/-- If the parts of the node are walked over from a state, the leaf that the node leads to is called
by the name that was pending for it, unless a node on the way has the identity of the leaf. -/
def Rename.Delivers (mangle : Mangle τ) (root : Node) (R : NodeId → Option String)
    (n leaf : Node) : Prop :=
  ∀ ancestors s s' qs, Rename.Steady root R s →
    Part.AllBecome (visitor .functions mangle) ancestors s n.parts qs s' →
    (Node.mk n.kind n.id n.span qs).namedLeaf .functions =
      .ok (leaf.called (if leaf.id ∈ n.beforeName.tail.map Node.id then none
        else s.pending.get? leaf.id))

section Delivery

variable {root n leaf : Node} (h : root.Admits .functions R)

include h

/-- A node on the way to a name is no reference. -/
theorem Node.Admits.not_listed (hn : n ∈ root.preorder)
    (hkind : n.kind ≠ .functionDefinition ∧ n.kind ≠ .functionPrototype ∧
      n.kind ≠ .functionCall) : R n.id = none := by
  by_contra href
  rcases h.functions rfl n hn href with hk | hk | hk
  · exact hkind.1 hk
  · exact hkind.2.1 hk
  · exact hkind.2.2 hk

/-- A leaf that is no reference takes the name that is pending for it. -/
theorem Node.Admits.called_leaf (hn : n ∈ root.preorder) (hname : n.kind.IsName)
    (hs : Rename.Steady root R s)
    (hbecomes : n.Becomes (visitor .functions mangle) ancestors kind s (some n') s') :
    n' = n.called (s.pending.get? n.id) := by
  have href : s.references.get? n.id = none := by
    refine hs.listed _ (h.not_listed hn ?_)
    rcases hname with hname | hname <;> simp [hname]
  obtain ⟨new, s₁, hmeet, hnew⟩ := becomes_cases hbecomes
  rcases meet_cases hmeet with ⟨-, rfl, -⟩ | ⟨name, leaf, hsome, -⟩
  · rcases hnew with ⟨name, hpending, ho, -⟩ | ⟨hpending, qs, ho, hqs⟩
    · rw [hpending]
      exact some.inj ho
    · rw [hpending, some.inj ho]
      obtain ⟨t, ht⟩ := h.names n hn hname
      obtain ⟨k, i, span, parts⟩ := n
      cases ht
      rw [Part.AllBecome.token hqs]
      rfl
  · rw [href] at hsome
    cases hsome

/-- A detached node that is no leaf takes a name without being changed by it. -/
theorem Node.Admits.withName_eq (hn : n ∈ root.preorder) (hkind : ¬n.kind.IsName)
    (hs : Rename.Steady root R s) (hpending : s.pending.get? n.id = some name) :
    n.withName name = n ∧ ∀ m ∈ n.preorder, m.id = n.id := by
  have hdetached : n.id = NodeId.detached := by
    by_contra hne
    exact hkind (h.childless hn hs.awaits hpending hne)
  constructor
  · rcases n.withName_cases name with ⟨k, _, _, _, hk, rfl, -⟩ | ⟨-, heq⟩
    · exact absurd hk hkind
    · exact heq
  · intro m hm
    rw [hdetached]
    exact h.detached_below hn hdetached hm

/-- What comes to the leaf that a node on the way leads to. -/
theorem Node.Admits.called_of_becomes (hn : n ∈ root.preorder) (href : R n.id = none)
    (hleads : n.LeadsTo leaf) (hdelivers : ¬n.kind.IsName → Delivers mangle root R n leaf)
    (hs : Rename.Steady root R s)
    (hbecomes : n.Becomes (visitor .functions mangle) ancestors kind s (some n') s') :
    n'.namedLeaf .functions =
      .ok (leaf.called (if leaf.id ∈ n.beforeName.map Node.id then none
        else s.pending.get? leaf.id)) := by
  by_cases hname : n.kind.IsName
  · obtain rfl := h.called_leaf hn hname hs hbecomes
    cases hleads with
    | name =>
      rw [beforeName_of_isName hname, map_nil, if_neg not_mem_nil]
      obtain ⟨t, ht⟩ := h.names _ hn hname
      cases ht
      cases s.pending.get? _ <;> rfl
    | definition | prototype | header | call | typeCall => simp [Kind.IsName] at hname
  · obtain ⟨new, s₁, hmeet, hnew⟩ := becomes_cases hbecomes
    rcases meet_cases hmeet with ⟨-, rfl, rfl⟩ | ⟨name, _, hsome, -⟩
    · rw [hleads.beforeName_eq hname, map_cons]
      rcases hnew with ⟨name, hpending, ho, -⟩ | ⟨hpending, qs, ho, hqs⟩
      · -- The node takes the name and stays as it is.
        obtain ⟨hsame, hids⟩ := h.withName_eq hn hname hs hpending
        have hleaf := hids leaf hleads.mem
        rw [some.inj ho, hsame, hleads.namedLeaf, if_pos (hleaf ▸ mem_cons_self),
          called]
      · -- The node is passed by.
        rw [some.inj ho, hdelivers hname _ _ _ _ (hs.meet hn hmeet) hqs,
          get?_erase hs.pending, ite_mem_cons]
    · rw [hs.listed _ href] at hsome
      cases hsome

/-- A node with the first of its parts changed leads to where that part leads. -/
theorem Node.Admits.delivers_child {kind : Kind} {parts : List Part}
    (hn : Node.mk kind id span (.child c :: parts) ∈ root.preorder)
    (hkind : kind = .functionDefinition ∨ kind = .functionPrototype) (hleads : c.LeadsTo leaf)
    (hdelivers : ¬c.kind.IsName → Delivers mangle root R c leaf) :
    Delivers mangle root R (.mk kind id span (.child c :: parts)) leaf := by
  intro ancestors s s' qs hs hqs
  obtain ⟨o, s₁, qs', hc, -, rfl⟩ := hqs.child
  have hmem := mem_preorder_of_mem_children hn mem_children_first
  have href : R c.id = none := by
    refine h.onWay rfl _ hn ?_ c mem_children_first
    rcases hkind with rfl | rfl <;> simp
  obtain ⟨c', rfl⟩ := becomes_some hc
  have hcalled := h.called_of_becomes hmem href hleads hdelivers hs hc
  rcases hkind with rfl | rfl <;> simpa [namedLeaf, beforeName] using hcalled

/-- The callee may be a type around the name, which takes the name if both are detached. -/
theorem Node.Admits.delivers_typeCall {id' id'' : NodeId} {span' span'' : Option Span}
    {parts parts' : List Part}
    (hn : .mk .functionCall id span
      (.child (.mk .typeSpecifier id' span'
        [.child (.mk .typeName id'' span'' parts'), .list []]) :: parts) ∈ root.preorder) :
    Delivers mangle root R
      (.mk .functionCall id span
        (.child (.mk .typeSpecifier id' span'
          [.child (.mk .typeName id'' span'' parts'), .list []]) :: parts))
      (.mk .typeName id'' span'' parts') := by
  intro ancestors s s' qs hs hqs
  obtain ⟨o, s₁, qs', hc, -, rfl⟩ := hqs.child
  have hmem := mem_preorder_of_mem_children hn mem_children_first
  have hmemName := mem_preorder_of_mem_children hmem mem_children_first
  obtain ⟨t, ht⟩ := h.names _ hmemName (.inr rfl)
  cases ht
  simp only [beforeName, tail_cons, map_cons, map_nil, id_mk,
    mem_singleton]
  obtain ⟨new, s₂, hmeet, hnew⟩ := becomes_cases hc
  rcases meet_cases hmeet with ⟨-, rfl, rfl⟩ | ⟨_, _, hsome, -⟩
  · rcases hnew with ⟨name, hpending, rfl, -⟩ | ⟨-, qs'', rfl, hqs''⟩
    · obtain ⟨hsame, hids⟩ := h.withName_eq hmem (by simp [Kind.IsName]) hs hpending
      have hid : id'' = id' := hids _ (child_mem_preorder mem_children_first)
      rw [if_pos hid, hsame]
      rfl
    · obtain ⟨o', s₃, rest, hname, hrest, rfl⟩ := hqs''.child
      have hs₁ := hs.meet hmem hmeet
      obtain ⟨name', rfl⟩ := becomes_some hname
      obtain rfl := h.called_leaf hmemName (.inr rfl) hs₁ hname
      cases hrest with
      | cons hnodes hpart hnil =>
        cases hnil
        cases hnodes
        cases hpart
        simp only [get?_erase hs.pending, id_mk]
        by_cases hid : id'' = id'
        · rw [if_pos hid, if_pos hid.symm]
          rfl
        · rw [if_neg hid, if_neg (Ne.symm hid)]
          cases s.pending.get? id'' <;> rfl
  · rw [hs.listed _ (h.not_listed hmem (by simp))] at hsome
    cases hsome

/-- Which name comes to the leaf that a node leads to. -/
theorem Node.Admits.delivers (hn : n ∈ root.preorder) (hleads : n.LeadsTo leaf)
    (hkind : ¬n.kind.IsName) : Delivers mangle root R n leaf := by
  induction hleads with
  | name => exact absurd (.inl rfl) hkind
  | definition hleads ih =>
    have hmem := mem_preorder_of_mem_children hn mem_children_first
    exact h.delivers_child hn (.inl rfl) hleads (ih hmem)
  | prototype hleads ih =>
    have hmem := mem_preorder_of_mem_children hn mem_children_first
    exact h.delivers_child hn (.inr rfl) hleads (ih hmem)
  | @header id span result name parts leaf hleads ih =>
    intro ancestors s s' qs hs hqs
    obtain ⟨o, s₁, qs', hresult, hqs', rfl⟩ := hqs.child
    obtain ⟨o', s₂, qs'', hname, -, rfl⟩ := hqs'.child
    have hchildren : result ∈ (Node.mk .functionHeader id span
        (.child result :: .child name :: parts)).children ∧ name ∈ (Node.mk .functionHeader id
          span (.child result :: .child name :: parts)).children := by
      simp [Part.nodes]
    have hmemResult := mem_preorder_of_mem_children hn hchildren.1
    have hmemName := mem_preorder_of_mem_children hn hchildren.2
    have href : R name.id = none := h.onWay rfl _ hn (.inr (.inr rfl)) name hchildren.2
    -- The result is walked over first.
    have hpass := h.passable.passes hmemResult hs hresult
    have hs₁ := hs.passes (fun m hm => mem_preorder_trans hmemResult hm) hpass
    have hpending := hpass.pending hs.pending (fun l₁ m l₂ heq leaf' hleaf' =>
      mem_map_of_mem (mem_of_preorder_eq heq (namedLeaf_mem hleaf').1)) leaf.id
    obtain ⟨name', rfl⟩ := becomes_some hname
    have hcalled := h.called_of_becomes hmemName href hleads (ih hmemName) hs₁ hname
    have hlookup : (if leaf.id ∈ name.beforeName.map Node.id then none
          else s₁.pending.get? leaf.id) =
        if leaf.id ∈ (result.preorder ++ name.beforeName).map Node.id then none
          else s.pending.get? leaf.id := by
      rw [hpending, map_append]
      by_cases hbefore : leaf.id ∈ name.beforeName.map Node.id
      · rw [if_pos hbefore, if_pos (mem_append_right _ hbefore)]
      · rw [if_neg hbefore]
        by_cases hmem : leaf.id ∈ result.preorder.map Node.id
        · rw [if_pos hmem, if_pos (mem_append_left _ hmem)]
        · rw [if_neg hmem, if_neg]
          rw [mem_append, not_or]
          exact ⟨hmem, hbefore⟩
    rw [hlookup] at hcalled
    simpa [namedLeaf, beforeName] using hcalled
  | @call id span id' span' parts' parts =>
    intro ancestors s s' qs hs hqs
    obtain ⟨o, s₁, qs', hc, -, rfl⟩ := hqs.child
    have hmem := mem_preorder_of_mem_children hn mem_children_first
    obtain ⟨c', rfl⟩ := becomes_some hc
    obtain rfl := h.called_leaf hmem (.inl rfl) hs hc
    obtain ⟨t, ht⟩ := h.names _ hmem (.inl rfl)
    cases ht
    have hbefore : (Node.mk .functionCall id span
        (.child (.mk .identifier id' span' [.token t]) :: parts)).beforeName.tail = [] := by
      simp [beforeName]
    rw [hbefore, map_nil, if_neg not_mem_nil]
    cases s.pending.get? _ <;> rfl
  | typeCall => exact h.delivers_typeCall hn

end Delivery

/-! ### References -/

/-- What is below a node comes in its order among the nodes of the tree. -/
theorem Node.preorder_sublist (hm : m ∈ n.preorder) : m.preorder.Sublist n.preorder := by
  refine topDown (P := fun m => m.preorder.Sublist n.preorder) (Sublist.refl _)
    (fun k _ ih c hc => Sublist.trans ?_ ih) hm
  rw [preorder_eq k, List.flatMap]
  exact (sublist_flatten_of_mem (mem_map_of_mem hc)).cons _

/-- The leaf of a leaf is the leaf itself, whatever its name. -/
theorem Node.namedLeaf_leaf {kind : Kind} (hkind : kind.IsName) {t : Token}
    (h : (Node.leaf kind id span t).namedLeaf target = .ok leaf) : leaf = Node.leaf kind id span t ∧
      ∀ t', (Node.leaf kind id span t').namedLeaf target = .ok (Node.leaf kind id span t') := by
  rcases hkind with rfl | rfl <;> by_cases htypes : target = .types <;>
    simp [Node.leaf, namedLeaf, htypes] at h ⊢
  · exact h.symm
  · exact h.symm

section References

variable {root : Node} (h : root.Admits target R) {c leaf : Node}

include h

/-- The name of a reference is lost exactly if a node before its leaf has the identity of the
leaf. -/
theorem Node.Admits.losesName_iff (hc : c ∈ root.preorder) (hleads : c.LeadsTo leaf) :
    c.losesName leaf = true ↔ leaf.id ∈ c.beforeName.map Node.id := by
  obtain ⟨after, hpreorder⟩ := hleads.preorder
  rw [losesName, Bool.and_eq_true, beq_iff_eq, List.any_eq_true, List.mem_map]
  constructor
  · rintro ⟨hleaf, m, hm, hid⟩
    exact ⟨m, hm, (beq_iff_eq.mp hid).trans hleaf.symm⟩
  · rintro ⟨m, hm, hid⟩
    have hleaf : leaf.id = NodeId.detached := by
      -- Otherwise the leaf is at one place only.
      by_contra hne
      have hsublist : [m, leaf].Sublist c.preorder := by
        rw [hpreorder]
        exact (singleton_sublist.mpr hm).append
          (singleton_sublist.mpr mem_cons_self)
      have hpair := h.pairwise [m, leaf] (hsublist.trans (preorder_sublist hc))
        (by simp [hid, hne])
      simp [hid] at hpair
    exact ⟨hleaf, m, hm, beq_iff_eq.mpr (hid.trans hleaf)⟩

omit h in
theorem Node.losesName_of_isName (hkind : c.kind.IsName) : c.losesName leaf = false := by
  rw [losesName, beforeName_of_isName hkind, any_nil, Bool.and_false]

/-- What becomes of a reference: its leaf has the name that was asked for it, if not lost. -/
theorem Node.Admits.called_reference (hc : c ∈ root.preorder) (hs : Rename.Steady root R s)
    (href : s.references.get? c.id = some name) {c' : Node}
    (hbecomes : c.Becomes (visitor target mangle) ancestors kind s (some c') s') :
    c'.id = c.id ∧ ∃ leaf, c.namedLeaf target = .ok leaf ∧
      c'.namedLeaf target = .ok (leaf.called
        (if c.losesName leaf then none else some ((mangle name c).run s.mangling).1)) := by
  have hR : R c.id ≠ none := fun hnone => by
    rw [hs.listed _ hnone] at href
    cases href
  have hne : c.id ≠ NodeId.detached := fun hid => hR (hid ▸ h.listed)
  obtain ⟨new, s₁, hmeet, hnew⟩ := becomes_cases hbecomes
  rcases meet_cases hmeet with ⟨hnone, -⟩ | ⟨name', leaf, hsome, hleaf, rfl, -, hpending, -⟩
  · rw [href] at hnone
    cases hnone
  obtain rfl : name' = name := some.inj (hsome.symm.trans href)
  rw [get?_insert] at hnew
  by_cases htarget : target = .functions
  · -- The leaf is below the reference.
    subst htarget
    have hleads := leadsTo_of_namedLeaf hleaf
    have hkind : ¬c.kind.IsName := by
      rintro (hk | hk) <;> rcases h.functions rfl c hc hR with hk' | hk' | hk' <;>
        (rw [hk] at hk'; cases hk')
    have hid : leaf.id ≠ c.id := by
      intro hid
      have hsame := h.eq_of_id (mem_preorder_trans hc hleads.mem) hc hid (hid ▸ hne)
      exact hkind (hsame ▸ (namedLeaf_mem hleaf).2)
    rw [if_neg hid] at hnew
    rcases hnew with ⟨new, htaken, -⟩ | ⟨-, qs, ho, hqs⟩
    · exact absurd (h.childless hc hs.awaits htaken hne) hkind
    · refine ⟨by rw [some.inj ho, id_mk], leaf, hleaf, ?_⟩
      rw [some.inj ho, h.delivers hc hleads hkind _ _ _ _ (hs.meet hc hmeet) hqs, hpending,
        get?_erase (hs.pending.insert _ _), if_neg (Ne.symm hid), get?_insert,
        if_pos rfl]
      have hlost := h.losesName_iff hc hleads
      rw [hleads.beforeName_eq hkind, map_cons, mem_cons, or_iff_right hid] at hlost
      by_cases hmem : leaf.id ∈ c.beforeName.tail.map Node.id
      · rw [if_pos hmem, if_pos (hlost.mpr hmem)]
      · rw [if_neg hmem, if_neg fun hloses => hmem (hlost.mp hloses)]
  · -- The reference is the leaf.
    have hkind := h.leaves htarget c hc hR
    obtain ⟨t, ht⟩ := h.names c hc hkind
    rw [ht] at hleaf
    obtain ⟨hsame, hother⟩ := namedLeaf_leaf hkind hleaf
    obtain rfl : leaf = c := hsame.trans ht.symm
    rw [if_pos rfl] at hnew
    rcases hnew with ⟨new, htaken, ho, -⟩ | ⟨hnone, -⟩
    · refine ⟨by rw [some.inj ho, id_withName], leaf, ht ▸ hleaf, ?_⟩
      rw [losesName_of_isName hkind, if_neg Bool.false_ne_true, some.inj ho, htaken,
        called, ht, withName_leaf hkind]
      exact hother _
    · cases hnone

end References

/-! ### Edited programs -/

theorem Kind.form_of_function {k : Kind}
    (h : k = .functionDefinition ∨ k = .functionPrototype ∨ k = .functionHeader) :
    ∀ f ∈ k.form, ∀ c ∈ f.kinds, c ≠ .functionDefinition ∧ c ≠ .functionCall := by
  rcases h with rfl | rfl | rfl <;> decide

namespace Program.ComesFrom

variable {p : Program} {tree : Node} {last : NodeId} {b : Names} (h : p.ComesFrom tree last b)

include h

/-- No node of a program is detached. -/
theorem id_ne_detached (hn : n ∈ p.root.preorder) : n.id ≠ NodeId.detached := by
  rcases h.origin hn with ⟨m, hm, rfl⟩ | ⟨site, fresh, span, t, hget, rfl⟩
  · rw [id_exchangeCallees]
    exact Nat.ne_of_gt (h.ids.mem (id_mem_ids hm)).1
  · exact Nat.ne_of_gt (Nat.lt_of_le_of_lt (Nat.zero_le _) (h.sound.fresh site fresh hget).1)

/-- No detached node is listed. -/
theorem listed_ne_detached {target : RenameTarget} {i : NodeId}
    (href : p.scopes.Refers target x i) :
    i ≠ NodeId.detached := by
  by_cases htarget : target = .types
  · subst htarget
    rcases h.listed_type href with ⟨span, t, hleaf, -⟩ | ⟨site, hget⟩
    · exact Nat.ne_of_gt (h.ids.mem (id_mem_ids hleaf)).1
    · exact Nat.ne_of_gt (Nat.lt_of_le_of_lt (Nat.zero_le _) (h.sound.fresh site i hget).1)
  · obtain ⟨n, hn, rfl, -⟩ := h.bears htarget href
    exact h.id_ne_detached hn

/-- The node of a program with the identity of a reference to a function. -/
theorem bears_function (hn : n ∈ p.root.preorder) (href : p.scopes.Refers .functions x n.id) :
    ∃ leaf, p.root.Bears .functions n leaf := by
  obtain ⟨m, hm, hid, id, span, t, hbears, -⟩ := h.bears (by decide) href
  obtain rfl := h.distinct.eq_of_id hm hn hid
  exact ⟨_, hbears⟩

/-- The nodes right below a definition, a prototype or a header are no references: a prototype that
is one stands in a statement of its own. -/
theorem not_listed_below (hm : m ∈ p.root.preorder)
    (hkind : m.kind = .functionDefinition ∨ m.kind = .functionPrototype ∨
      m.kind = .functionHeader) (hc : c ∈ m.children) :
    ¬p.scopes.Refers .functions x c.id := by
  intro href
  have hmem := mem_preorder_of_mem_children hm hc
  obtain ⟨leaf, hbears⟩ := h.bears_function hmem href
  cases hbears with
  | ofFunction hnamed hheader hstands =>
    obtain ⟨f, hf, hfkind⟩ := (h.allFit m hm).kind_mem hc
    have hprototype : c.kind = .functionPrototype := by
      obtain ⟨hdefinition, hcall⟩ := Kind.form_of_function hkind f hf c.kind hfkind
      rcases hnamed.kind with hk | hk | hk | hk
      · exact absurd hk hheader
      · exact hk
      · exact absurd hk hdefinition
      · exact absurd hk hcall
    obtain ⟨d, hd, hdkind, hdc⟩ := hstands hprototype
    obtain rfl := h.distinct.parent_unique hd hm hdc hc rfl
    rw [hdkind] at hkind
    simp at hkind

/-- In a tree that stems from that of the program, references are found. -/
theorem admits (hroot : root.StemsFrom p.root) (hscope : scope ∈ p.scopes.scopes)
    (target : RenameTarget) : root.Admits target (scope.nameOf? target) := by
  have hrefers : ∀ {i}, scope.nameOf? target i ≠ none → ∃ x, p.scopes.Refers target x i := by
    intro i hi
    obtain ⟨x, hx⟩ := ne_none_iff_exists'.mp hi
    exact ⟨x, scope, hscope, Scope.refers_of_nameOf? hx⟩
  have hlisted : scope.nameOf? target NodeId.detached = none := by
    by_contra hne
    obtain ⟨x, hx⟩ := hrefers hne
    exact h.listed_ne_detached hx rfl
  -- A reference in the tree is one in the tree that was read.
  have hread : ∀ m ∈ root.preorder, scope.nameOf? target m.id ≠ none →
      ∃ n ∈ p.root.preorder, n.kind = m.kind ∧ ∃ x, p.scopes.Refers target x n.id := by
    intro m hm hne
    obtain ⟨x, hx⟩ := hrefers hne
    obtain ⟨n, hn, hid, hkind⟩ := hroot.same m hm (h.listed_ne_detached hx)
    exact ⟨n, hn, hkind, x, hid ▸ hx⟩
  refine ⟨hroot.names, hroot.attached.nodup (h.distinct.filter _), fun m hm hid c hc => ?_,
    hlisted, fun htarget m hm hne => ?_, ?_, ?_⟩
  · by_contra hne
    obtain ⟨n, hn, -, -, hsame, -⟩ := hroot.below m hm c hc hne
    exact h.id_ne_detached hn (hsame.trans hid)
  · obtain ⟨n, hn, hkind, x, hx⟩ := hread m hm hne
    rw [← hkind]
    by_cases htypes : target = .types
    · subst htypes
      rcases h.kind_of_listed_type hn hx with ⟨_, _, _, rfl, -⟩ | ⟨_, _, _, rfl⟩
      · exact .inr rfl
      · exact .inl rfl
    · obtain ⟨n', hn', hid, _, _, _, hbears, -⟩ := h.bears htypes hx
      obtain rfl := h.distinct.eq_of_id hn' hn hid
      cases hbears with
      | ofVariable => exact .inl rfl
      | ofFunction => exact absurd rfl htarget
  · rintro rfl m hm hne
    obtain ⟨n, hn, hkind, x, hx⟩ := hread m hm hne
    obtain ⟨leaf, hbears⟩ := h.bears_function hn hx
    rw [← hkind]
    cases hbears with
    | ofFunction hnamed hheader _ =>
      rcases hnamed.kind with hk | hk | hk | hk
      · exact absurd hk hheader
      · exact .inr (.inl hk)
      · exact .inl hk
      · exact .inr (.inr hk)
  · rintro rfl m hm hkind c hc
    by_contra hne
    obtain ⟨x, hx⟩ := hrefers hne
    obtain ⟨n, hn, d, hd, -, hnkind, hdid, -⟩ := hroot.below m hm c hc (h.listed_ne_detached hx)
    exact h.not_listed_below hn (hnkind ▸ hkind) hd (hdid ▸ hx)

end Program.ComesFrom

namespace Rename

/-- A reference with the answer for it: the nodes before it are known, and so is the state of what
gives names. -/
theorem exists_of_mem_zip {l : List Node} {m : τ} {c : String × Node} {new : String}
    (h : (c, new) ∈ (calls R l).zip ((mangle.answers (calls R l)).run m).1) :
    ∃ before after, l = before ++ c.2 :: after ∧ R c.2.id = some c.1 ∧
      new = ((mangle c.1 c.2).run ((mangle.answers (calls R before)).run m).2).1 := by
  induction l generalizing m with
  | nil => cases h
  | cons n l ih =>
    have hcalls : calls R (n :: l) = calls R [n] ++ calls R l := calls_append [n] l
    rw [hcalls, answers_append] at h
    have hlater : (c, new) ∈ (calls R l).zip
          ((mangle.answers (calls R l)).run ((mangle.answers (calls R [n])).run m).2).1 →
        ∃ before after, n :: l = before ++ c.2 :: after ∧ R c.2.id = some c.1 ∧
          new = ((mangle c.1 c.2).run ((mangle.answers (calls R before)).run m).2).1 := by
      intro hmem
      obtain ⟨before, after, rfl, hname, hnew⟩ := ih hmem
      refine ⟨n :: before, after, rfl, hname, ?_⟩
      have hsplit : calls R (n :: before) = calls R [n] ++ calls R before :=
        calls_append [n] before
      rw [hnew, hsplit, answers_append]
    cases hname : R n.id with
    | none =>
      have hsingle : calls R [n] = [] := by simp [calls, hname]
      rw [hsingle] at h hlater
      exact hlater h
    | some name =>
      have hsingle : calls R [n] = [(name, n)] := by simp [calls, hname]
      rw [hsingle] at h hlater
      rcases mem_cons.mp h with heq | hmem
      · cases heq
        exact ⟨[], l, rfl, hname, rfl⟩
      · exact hlater hmem

end Rename

/-- What a renaming has done to a tree if it succeeds. -/
structure Node.RenamesFound {τ : Type} (root : Node) (scope : Scope) (target : RenameTarget)
    (mangle : Mangle τ) (mangling : τ) : Prop where
  /-- What is listed is in the tree, and is asked for. -/
  found : ∀ name i, scope.Refers target name i →
    ∃ c ∈ root.referencesTo scope target, c.2 ∈ root.preorder ∧ c.2.id = i
  /-- The names are asked for in pre-order, and nothing else is. -/
  asked : (root.rename scope target mangle mangling).mangling =
    ((mangle.answers (root.referencesTo scope target)).run mangling).2
  /-- Each reference is in the tree afterwards, and its leaf has the new name, unless that is lost:
  then it has the name that it had. -/
  named : ∀ c new,
    (c, new) ∈ (root.referencesTo scope target).zip
      ((mangle.answers (root.referencesTo scope target)).run mangling).1 →
    ∃ leaf, c.2.namedLeaf target = .ok leaf ∧
      ∃ n ∈ (root.rename scope target mangle mangling).root.preorder, n.id = c.2.id ∧
        ∃ leaf', n.namedLeaf target = .ok leaf' ∧
          leaf'.text = if c.2.losesName leaf then leaf.text else new

theorem Node.text_called (h : ∃ t, n = Node.leaf n.kind n.id n.span t) (hkind : n.kind.IsName)
    (o : Option String) : (n.called o).text = o.getD n.text := by
  obtain ⟨t, ht⟩ := h
  cases o with
  | none => rfl
  | some name =>
    rw [called, ht, withName_leaf hkind]
    rfl

theorem Rename.references_of_missing? (h : missing? s = none)
    (i : NodeId) : s.references.get? i = none := by
  rw [missing?, map_eq_none_iff, head?_eq_none_iff, RenameState.leftOver,
    append_eq_nil_iff] at h
  rw [h.1]
  rfl

/-- A renaming that succeeds has walked over the whole tree and found all references. -/
theorem Node.becomes_of_rename {mangling : τ}
    (hok : (root.rename scope target mangle mangling).error = none) :
    ∃ s', root.Becomes (visitor target mangle) [] none (.start scope target mangling)
        (some (root.rename scope target mangle mangling).root) s' ∧
      (∀ i, s'.references.get? i = none) ∧
      (root.rename scope target mangle mangling).mangling = s'.mangling := by
  rcases visit_cases (visitor_keepsRoot target mangle) root (.start scope target mangling) with
    ⟨e, he⟩ | ⟨root', hbecomes, hresult⟩
  · simp only [rename, he] at hok
    cases hok
  · simp only [rename, hresult] at hok ⊢
    exact ⟨_, hbecomes, references_of_missing? hok, rfl⟩

/-- A renaming that succeeds gives the references that it finds their new names. -/
theorem Node.Admits.renamesFound (h : root.Admits target (scope.nameOf? target)) {mangling : τ}
    (hok : (root.rename scope target mangle mangling).error = none) :
    root.RenamesFound scope target mangle mangling := by
  obtain ⟨s', hbecomes, hleft, hmangling⟩ := becomes_of_rename hok
  have hs := Rename.steady_start root scope target mangling
  have hlisted : ∀ i, (RenameState.start scope target mangling).references.get? i =
      scope.nameOf? target i := fun _ => rfl
  have hpass := h.passable.passes root.mem_preorder_self hs hbecomes
  have honce : ∀ l : List Node, l.Sublist root.preorder →
      (l.filter fun n => (scope.nameOf? target n.id).isSome).Pairwise fun n m => n.id ≠ m.id := by
    intro l hl
    refine h.pairwise _ (filter_sublist.trans hl) fun n hn hid => ?_
    have hsome := (mem_filter.mp hn).2
    rw [hid, h.listed] at hsome
    cases hsome
  refine ⟨fun name i href => ?_, ?_, fun c new hmem => ?_⟩
  · obtain ⟨x, hx⟩ := Scope.exists_nameOf? href
    have hi : i ∈ root.preorder.map Node.id := by
      by_contra hi
      have hkept := (hpass.references hs.references i).trans (if_neg hi)
      rw [hleft, hlisted, hx] at hkept
      cases hkept
    obtain ⟨n, hn, rfl⟩ := mem_map.mp hi
    exact ⟨(x, n), mem_calls.mpr ⟨hn, hx⟩, hn, rfl⟩
  · rw [hmangling, hpass.mangling hs.references (fun n _ => hlisted n.id)
      (honce _ (Sublist.refl _))]
    rfl
  · obtain ⟨before, after, hsplit, hname, rfl⟩ := exists_of_mem_zip hmem
    have hc : c.2 ∈ root.preorder := by
      rw [hsplit]
      exact mem_append_right _ mem_cons_self
    have hbefore : before.Sublist root.preorder := hsplit ▸ sublist_append_left _ _
    obtain ⟨ancestors, kind, s₁, c', s₂, hpassed, hcbecomes, hc'⟩ :=
      h.reaches root.mem_preorder_self hs hbecomes hsplit (by simp [hname])
    -- The reference is not among the nodes before it.
    have hnot : c.2.id ∉ before.map Node.id := by
      intro hid
      obtain ⟨m, hm, hmid⟩ := mem_map.mp hid
      have hpair := honce [m, c.2] (hsplit ▸ (singleton_sublist.mpr hm).append
        (singleton_sublist.mpr mem_cons_self))
      simp [hmid, hname] at hpair
    have href : s₁.references.get? c.2.id = some c.1 := by
      rw [hpassed.references hs.references, if_neg hnot, hlisted, hname]
    have hs₁ := hs.passes (fun n hn => hbefore.mem hn) hpassed
    obtain ⟨hid, leaf, hleaf, hleaf'⟩ := h.called_reference hc hs₁ href hcbecomes
    obtain ⟨hleafMem, hleafKind⟩ := namedLeaf_mem hleaf
    refine ⟨leaf, hleaf, c', hc', hid, _, hleaf', ?_⟩
    rw [text_called (h.names leaf (mem_preorder_trans hc hleafMem) hleafKind) hleafKind,
      hpassed.mangling hs.references (fun n _ => hlisted n.id) (honce _ hbefore)]
    split
    · rfl
    · rfl

/-- A renaming of an edited program that succeeds has found all that the scope lists, and each
reference has the name that was given to it, except where that was lost. -/
theorem Program.Edited.named_of_rename {text : String} {options : Options} {p : Program}
    (hp : Program.parse text options = .ok p) {root : Node} (h : p.Edited root) {scope : Scope}
    (hscope : scope ∈ p.scopes.scopes) {mangling : τ}
    (hok : (root.rename scope target mangle mangling).error = none) :
    root.RenamesFound scope target mangle mangling := by
  obtain ⟨tree, last, b, hfrom⟩ := Program.comesFrom hp
  have hstems := h.stemsFrom hfrom.allFit
  exact (hfrom.admits hstems hscope target).renamesFound hok

/-- Puts a new identifier with the same text in the place of each identifier. -/
def Visitor.renewing : Visitor Unit where
  enter path := pure
    { Decision.pass with
      edit :=
        if path.node.kind = .identifier then
          path.node.leaf?.bind fun t =>
            (path.replace (Node.detached .identifier [.token t])).toOption
        else none }
  exit := Visitor.idle

theorem Visitor.renewing_edit {path : Path} {s s' : Unit} {d : Decision} {e : Edit}
    (h : (Visitor.renewing.enter path).run.run s = (.ok d, s')) (he : d.edit = some e) :
    ∃ t, path.replace (Node.detached .identifier [.token t]) = .ok e := by
  cases h
  dsimp only at he
  split at he
  · obtain ⟨t, -, hedit⟩ := bind_eq_some_iff.mp he
    refine ⟨t, ?_⟩
    cases hreplace : path.replace (Node.detached .identifier [.token t]) with
    | error _ => rw [hreplace] at hedit; cases hedit
    | ok _ => rw [hreplace] at hedit; cases hedit; rfl
  · cases he

theorem Visitor.renewing_lawful : Visitor.renewing.Lawful where
  enter _ _ _ _ hrun _ he :=
    let ⟨_, ht⟩ := Visitor.renewing_edit hrun he
    .inr ⟨_, ht⟩
  exit _ _ _ _ hrun _ he := by
    cases hrun
    cases he

theorem Visitor.renewing_putsNew : Visitor.renewing.PutsNew where
  enter path _ _ _ hrun n he := by
    obtain ⟨t, ht⟩ := Visitor.renewing_edit hrun he
    rw [Path.replace] at ht
    split at ht
    · cases ht
    · cases ht
      have honly : ∀ m ∈ (Node.detached .identifier [.token t]).preorder,
          m = Node.detached .identifier [.token t] := by
        intro m hm
        rw [preorder_eq] at hm
        exact mem_singleton.mp hm
      exact ⟨fun m hm => honly m hm ▸ rfl, fun m hm _ => ⟨t, honly m hm ▸ rfl⟩⟩
  exit _ _ _ _ hrun _ he := by
    cases hrun
    cases he

/-- The name of a function is lost if both its identifier and one in its type are new: the new name
goes to the other identifier, and the renaming succeeds. -/
theorem Program.Edited.named_of_rename_renewed :
    ∃ p scope, Program.parse "float[n] f();" Options.default = .ok p ∧
      scope ∈ p.scopes.scopes ∧
      p.Edited ((p.root.visit Visitor.renewing ()).tree p.root) ∧
      (((p.root.visit Visitor.renewing ()).tree p.root).rename scope .functions
        (fun name _ => pure ("x_" ++ name)) ()).error = none ∧
      (((p.root.visit Visitor.renewing ()).tree p.root).rename scope .functions
        (fun name _ => pure ("x_" ++ name)) ()).root.source = "float[x_f] f();" ∧
      ((p.root.visit Visitor.renewing ()).tree p.root).RenamesFound scope .functions
        (fun name _ => pure ("x_" ++ name)) () := by
  refine Program.exists_of_parse (fun p hparse (h : p.scopes.root ∈ p.scopes.scopes ∧ _ ∧ _) =>
    have hedited := .visit () .read Visitor.renewing_lawful Visitor.renewing_putsNew
    ⟨_, hparse, h.1, hedited, h.2.1, h.2.2,
      Program.Edited.named_of_rename hparse hedited h.1 h.2.1⟩) ?_
  decide +kernel

end ShaderSource
