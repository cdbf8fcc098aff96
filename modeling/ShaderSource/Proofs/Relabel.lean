import ShaderSource.Proofs.Form
import ShaderSource.Proofs.Identity
import ShaderSource.Proofs.Registry
import ShaderSource.Rename

/-!
# Relabelling

Relabelling a tree gives new names to its leaves: each identifier and each type name whose identity
has a new name gets it as its text. This is all that renaming does to a tree, so it is the measure
of what a renaming changes: kinds, identities, spans and trivia stay, and so do all other tokens.

Relabelling twice is relabelling once, where the later names come first. Names that do not occur in
a tree do not matter to it.

## Main results

* `Node.preorder_relabel`: relabelling changes the nodes of a tree one by one.
* `Node.relabel_relabel`: relabelling twice is relabelling once.
* `Node.relabel_congr`: only the names of nodes in the tree matter.
* `Node.AllFit.relabel`, `Node.Distinct.relabel`: relabelled trees are well formed.
-/

namespace ShaderSource

open Node

variable {kind : Kind} {f : Node → Node} {n : Node} {id : NodeId} {name : String}
  {names names' : Registry NodeId String}

/-! ### Leaves with names -/

/-- The kinds of leaves that carry names. -/
def Kind.IsName (k : Kind) : Prop :=
  k = .identifier ∨ k = .typeName

theorem Node.withName_cases (n : Node) (name : String) :
    (∃ kind id span t, kind.IsName ∧ n = Node.leaf kind id span t ∧
      n.withName name = Node.leaf kind id span ⟨name, t.trivia⟩) ∨
    ((∀ kind id span t, kind.IsName → n ≠ Node.leaf kind id span t) ∧ n.withName name = n) := by
  unfold withName
  split
  · exact .inl ⟨_, _, _, _, .inl rfl, rfl, rfl⟩
  · exact .inl ⟨_, _, _, _, .inr rfl, rfl, rfl⟩
  · rename_i hidentifier htype
    refine .inr ⟨?_, rfl⟩
    rintro kind id span t (rfl | rfl) rfl
    · exact hidentifier _ _ _ rfl
    · exact htype _ _ _ rfl

theorem Node.withName_leaf (hkind : kind.IsName) (id : NodeId) (span : Option Span) (t : Token)
    (name : String) :
    (Node.leaf kind id span t).withName name = Node.leaf kind id span ⟨name, t.trivia⟩ := by
  rcases hkind with rfl | rfl <;> rfl

@[simp] theorem Node.id_withName (n : Node) (name : String) : (n.withName name).id = n.id := by
  rcases n.withName_cases name with ⟨kind, id, span, t, -, rfl, h⟩ | ⟨-, h⟩ <;> rw [h]
  rfl

@[simp] theorem Node.kind_withName (n : Node) (name : String) :
    (n.withName name).kind = n.kind := by
  rcases n.withName_cases name with ⟨kind, id, span, t, -, rfl, h⟩ | ⟨-, h⟩ <;> rw [h]
  rfl

theorem Node.children_leaf (kind : Kind) (id : NodeId) (span : Option Span) (t : Token) :
    (Node.leaf kind id span t).children = [] := by
  simp [leaf, Part.nodes]

theorem Node.children_withName (n : Node) (name : String) :
    (n.withName name).children = n.children := by
  rcases n.withName_cases name with ⟨kind, id, span, t, -, rfl, h⟩ | ⟨-, h⟩ <;> rw [h]
  rw [children_leaf, children_leaf]

theorem Node.withName_withName (n : Node) (name name' : String) :
    (n.withName name).withName name' = n.withName name' := by
  rcases n.withName_cases name with ⟨kind, id, span, t, hkind, rfl, h⟩ | ⟨-, h⟩
  · rw [h, withName_leaf hkind, withName_leaf hkind]
  · rw [h]

theorem Node.mapChildren_leaf (f : Node → Node) (kind : Kind) (id : NodeId) (span : Option Span)
    (t : Token) : (Node.leaf kind id span t).mapChildren f = Node.leaf kind id span t :=
  rfl

/-- Only a leaf becomes a leaf when the nodes right below change. -/
theorem Node.eq_leaf_of_mapChildren {span : Option Span} {t : Token}
    (h : n.mapChildren f = Node.leaf kind id span t) : n = Node.leaf kind id span t := by
  obtain ⟨k, i, s, ps⟩ := n
  rw [mapChildren, leaf, mk.injEq] at h
  obtain ⟨rfl, rfl, rfl, hps⟩ := h
  obtain ⟨p, rfl, hp⟩ := List.map_eq_singleton_iff.mp hps
  cases p with
  | token t' =>
    cases hp
    rfl
  | _ => cases hp

theorem Node.withName_mapChildren (f : Node → Node) (n : Node) (name : String) :
    (n.mapChildren f).withName name = (n.withName name).mapChildren f := by
  rcases n.withName_cases name with ⟨kind, id, span, t, hkind, rfl, h⟩ | ⟨hne, h⟩
  · rw [h, mapChildren_leaf, mapChildren_leaf, withName_leaf hkind]
  · rw [h]
    rcases (n.mapChildren f).withName_cases name with ⟨kind, id, span, t, hkind, hn, -⟩ | ⟨-, h'⟩
    · exact absurd (eq_leaf_of_mapChildren hn) (hne kind id span t hkind)
    · exact h'

theorem Node.Fits.withName (h : n.Fits) (name : String) : (n.withName name).Fits := by
  rcases n.withName_cases name with ⟨kind, id, span, t, hkind, rfl, h'⟩ | ⟨-, h'⟩
  · rw [h']
    rcases hkind with rfl | rfl <;> exact .cons (Part.fits_token.mpr ⟨_, rfl⟩) .nil
  · rw [h']
    exact h

theorem Node.Fits.mapChildren (h : n.Fits) (hkind : ∀ c, (f c).kind = c.kind) :
    (n.mapChildren f).Fits := by
  obtain ⟨k, i, s, ps⟩ := n
  exact Part.fits_of_alike (R := fun n m => m.kind = n.kind)
    (Part.mapNodes_alike_all fun c _ => hkind c) (fun _ _ hR => hR) h

/-! ### Relabelling -/

mutual

/-- The tree with new names in its leaves, by their identities. -/
def Node.relabel (names : Registry NodeId String) : Node → Node
  | .mk kind id span parts =>
    let node := Node.mk kind id span (Part.relabelAll names parts)
    match names.get? id with
    | none => node
    | some name => node.withName name
termination_by structural n => n

def Part.relabelAll (names : Registry NodeId String) : List Part → List Part
  | [] => []
  | p :: ps => p.relabel names :: Part.relabelAll names ps
termination_by structural ps => ps

def Part.relabel (names : Registry NodeId String) : Part → Part
  | .text s => .text s
  | .token t => .token t
  | .optToken t => .optToken t
  | .child n => .child (n.relabel names)
  | .optChild none => .optChild none
  | .optChild (some n) => .optChild (some (n.relabel names))
  | .list ns => .list (Node.relabelAll names ns)
  | .separated ns separators => .separated (Node.relabelAll names ns) separators
  | .branch word none => .branch word none
  | .branch word (some n) => .branch word (some (n.relabel names))
termination_by structural p => p

def Node.relabelAll (names : Registry NodeId String) : List Node → List Node
  | [] => []
  | n :: ns => n.relabel names :: Node.relabelAll names ns
termination_by structural ns => ns

end

section Relabel

variable (names : Registry NodeId String)

theorem Node.relabelAll_eq (ns : List Node) :
    Node.relabelAll names ns = ns.map (Node.relabel names) := by
  induction ns with
  | nil => simp [relabelAll]
  | cons n ns ih => simp [relabelAll, ih]

theorem Part.relabel_eq (p : Part) : p.relabel names = p.mapNodes (Node.relabel names) := by
  cases p with
  | text | token | optToken | child => simp [Part.relabel, Part.mapNodes]
  | optChild n | branch _ n => cases n <;> simp [Part.relabel, Part.mapNodes]
  | list | separated => simp [Part.relabel, Part.mapNodes, relabelAll_eq]

theorem Part.relabelAll_eq (ps : List Part) :
    Part.relabelAll names ps = ps.map (Part.mapNodes (Node.relabel names)) := by
  induction ps with
  | nil => simp [Part.relabelAll]
  | cons p ps ih => simp [Part.relabelAll, ih, Part.relabel_eq]

/-- A node without a new name changes only below. -/
theorem Node.relabel_of_none (h : names.get? n.id = none) :
    n.relabel names = n.mapChildren (Node.relabel names) := by
  obtain ⟨k, i, s, ps⟩ := n
  rw [id_mk] at h
  simp only [relabel, h, mapChildren, Part.relabelAll_eq]

/-- A node with a new name gets it. -/
theorem Node.relabel_of_some (h : names.get? n.id = some name) :
    n.relabel names = (n.mapChildren (Node.relabel names)).withName name := by
  obtain ⟨k, i, s, ps⟩ := n
  rw [id_mk] at h
  simp only [relabel, h, mapChildren, Part.relabelAll_eq]

theorem Node.relabel_of_childless (hchildren : n.children = []) (h : names.get? n.id = some name) :
    n.relabel names = n.withName name := by
  have hsame : ∀ c ∈ n.children, c.relabel names = c := by simp [hchildren]
  rw [relabel_of_some names h, mapChildren_congr hsame, mapChildren_id]

@[simp] theorem Node.id_relabel (n : Node) : (n.relabel names).id = n.id := by
  cases h : names.get? n.id with
  | none => rw [relabel_of_none names h, id_mapChildren]
  | some name => rw [relabel_of_some names h, id_withName, id_mapChildren]

@[simp] theorem Node.kind_mapChildren (f : Node → Node) (n : Node) :
    (n.mapChildren f).kind = n.kind := by
  cases n
  rfl

@[simp] theorem Node.kind_relabel (n : Node) : (n.relabel names).kind = n.kind := by
  cases h : names.get? n.id with
  | none => rw [relabel_of_none names h, kind_mapChildren]
  | some name => rw [relabel_of_some names h, kind_withName, kind_mapChildren]

theorem Node.children_relabel (n : Node) :
    (n.relabel names).children = n.children.map (Node.relabel names) := by
  cases h : names.get? n.id with
  | none => rw [relabel_of_none names h, children_mapChildren]
  | some name =>
    rw [relabel_of_some names h, children_withName, children_mapChildren]

/-- A node of a kind that carries no name changes only below. -/
theorem Node.relabel_of_kind (hkind : ¬n.kind.IsName) :
    n.relabel names = n.mapChildren (Node.relabel names) := by
  cases h : names.get? n.id with
  | none => exact relabel_of_none names h
  | some name =>
    rw [relabel_of_some names h]
    rcases (n.mapChildren (relabel names)).withName_cases name with
      ⟨kind, id, span, t, hname, heq, -⟩ | ⟨-, heq⟩
    · have hsame : n.kind = kind := (n.kind_mapChildren _).symm.trans (congrArg Node.kind heq)
      exact absurd (hsame ▸ hname) hkind
    · exact heq

theorem Node.relabel_mk (hkind : ¬kind.IsName) (id : NodeId) (span : Option Span)
    (parts : List Part) : (Node.mk kind id span parts).relabel names =
      .mk kind id span (parts.map (Part.mapNodes (Node.relabel names))) :=
  relabel_of_kind names hkind

/-- Relabelling changes the nodes of a tree one by one. -/
theorem Node.preorder_relabel (n : Node) :
    (n.relabel names).preorder = n.preorder.map (Node.relabel names) := by
  induction n using induction with
  | h n ih =>
    rw [preorder_eq, preorder_eq n, children_relabel, List.map_cons,
      List.flatMap_map, List.map_flatMap]
    exact congrArg _ (List.flatMap_congr ih)

theorem Node.ids_relabel (n : Node) : (n.relabel names).ids = n.ids := by
  rw [ids, preorder_relabel, List.map_map]
  exact List.map_congr_left fun m _ => m.id_relabel names

theorem Node.Distinct.relabel (h : n.Distinct) : (n.relabel names).Distinct := by
  rwa [Distinct, ids_relabel]

theorem Node.Fits.relabel (h : n.Fits) : (n.relabel names).Fits := by
  have hmap := h.mapChildren fun c => c.kind_relabel names
  cases hget : names.get? n.id with
  | none =>
    rw [relabel_of_none names hget]
    exact hmap
  | some name =>
    rw [relabel_of_some names hget]
    exact hmap.withName name

theorem Node.AllFit.relabel (h : n.AllFit) : (n.relabel names).AllFit := by
  intro m hm
  rw [preorder_relabel] at hm
  obtain ⟨m', hm', rfl⟩ := List.mem_map.mp hm
  exact (h m' hm').relabel names

/-! ### Leaves -/

theorem Node.relabel_leaf_of_some (hkind : kind.IsName) (h : names.get? id = some name)
    (span : Option Span) (t : Token) :
    (Node.leaf kind id span t).relabel names = Node.leaf kind id span ⟨name, t.trivia⟩ := by
  rw [relabel_of_some names (n := leaf kind id span t) h, mapChildren_leaf,
    withName_leaf hkind]

theorem Node.relabel_leaf_of_none (h : names.get? id = none) (span : Option Span) (t : Token) :
    (Node.leaf kind id span t).relabel names = Node.leaf kind id span t := by
  rw [relabel_of_none names (n := leaf kind id span t) h, mapChildren_leaf]

/-- A relabelled leaf is a leaf. -/
theorem Node.exists_relabel_leaf (hkind : kind.IsName) (id : NodeId) (span : Option Span)
    (t : Token) : ∃ t', (Node.leaf kind id span t).relabel names = Node.leaf kind id span t' := by
  cases h : names.get? id with
  | none => exact ⟨t, relabel_leaf_of_none names h span t⟩
  | some name => exact ⟨_, relabel_leaf_of_some names hkind h span t⟩

end Relabel

/-! ### Laws -/

/-- Without new names, nothing changes. -/
theorem Node.relabel_nil (n : Node) : n.relabel [] = n := by
  induction n using induction with
  | h n ih => rw [relabel_of_none [] rfl, mapChildren_congr ih, mapChildren_id]

/-- Only the names of nodes in the tree matter. -/
theorem Node.relabel_congr (h : ∀ i ∈ n.ids, names.get? i = names'.get? i) :
    n.relabel names = n.relabel names' := by
  induction n using induction with
  | h n ih =>
    rw [ids_eq, List.forall_mem_cons] at h
    have hchildren : n.mapChildren (relabel names) = n.mapChildren (relabel names') :=
      mapChildren_congr fun c hc =>
        ih c hc fun i hi => h.2 i (List.mem_flatMap.mpr ⟨c, hc, hi⟩)
    cases hget : names.get? n.id with
    | none => rw [relabel_of_none _ hget, relabel_of_none _ (h.1 ▸ hget), hchildren]
    | some name =>
      rw [relabel_of_some _ hget, relabel_of_some _ (h.1 ▸ hget), hchildren]

/-- Relabelling twice is relabelling once, where the later names come first. -/
theorem Node.relabel_relabel (n : Node) (names names' : Registry NodeId String) :
    (n.relabel names).relabel names' = n.relabel (names' ++ names) := by
  induction n using induction with
  | h n ih =>
    have hchildren :
        (n.mapChildren (relabel names)).mapChildren (relabel names') =
          n.mapChildren (relabel (names' ++ names)) := by
      rw [mapChildren_mapChildren]
      exact mapChildren_congr ih
    have hid := n.id_relabel names
    have hget := Registry.get?_append names' names n.id
    cases h' : names'.get? n.id with
    | none =>
      rw [relabel_of_none names' (hid ▸ h')]
      rw [h', Option.none_or] at hget
      cases h : names.get? n.id with
      | none => rw [relabel_of_none _ h, relabel_of_none _ (hget.trans h), hchildren]
      | some name =>
        rw [relabel_of_some _ h, relabel_of_some _ (hget.trans h),
          ← withName_mapChildren, hchildren]
    | some name' =>
      rw [relabel_of_some names' (hid ▸ h')]
      rw [h', Option.some_or] at hget
      rw [relabel_of_some _ hget]
      cases h : names.get? n.id with
      | none => rw [relabel_of_none _ h, hchildren]
      | some name =>
        rw [relabel_of_some _ h, ← withName_mapChildren, hchildren,
          withName_withName]

/-- Later names for all that has been relabelled leave nothing of the earlier ones. -/
theorem Node.relabel_override (h : names.map Prod.fst = names'.map Prod.fst) :
    (n.relabel names).relabel names' = n.relabel names' := by
  rw [relabel_relabel]
  refine relabel_congr fun i _ => ?_
  rw [Registry.get?_append]
  cases hget : names'.get? i with
  | some name => rfl
  | none =>
    rw [Registry.get?_eq_none_iff, ← h, ← Registry.get?_eq_none_iff] at hget
    rw [hget]
    rfl

/-- Leaves that get the names they have stay. -/
theorem Node.relabel_eq_self
    (h : ∀ m ∈ n.preorder, ∀ name, names.get? m.id = some name → m.withName name = m) :
    n.relabel names = n := by
  induction n using induction with
  | h n ih =>
    have hchildren : n.mapChildren (relabel names) = n := by
      have hsame : ∀ c ∈ n.children, c.relabel names = c := fun c hc =>
        ih c hc fun m hm => h m (mem_preorder_of_mem_child hc hm)
      rw [mapChildren_congr hsame, mapChildren_id]
    cases hget : names.get? n.id with
    | none => rw [relabel_of_none names hget, hchildren]
    | some name =>
      rw [relabel_of_some names hget, hchildren, h n n.mem_preorder_self name hget]

end ShaderSource
