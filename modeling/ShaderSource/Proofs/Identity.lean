import Mathlib.Data.List.Nodup
import Mathlib.Data.List.Pairwise
import ShaderSource.Proofs.Tree

/-!
# Identities of nodes

Numbering gives the nodes of a tree consecutive identities in pre-order, so they are distinct.
Exchanging callees drops the identities of the old callees and brings in those of the new ones. If
the new ones are fresh and distinct, identities stay distinct.

In a tree with distinct identities a node is found at one place only: nodes with the same identity
are the same, and so are the nodes right above them.

## Main results

* `Node.number_consecutive`: the identities of a numbered tree follow each other.
* `Node.exchangeCallees_ids`: which identities are in a tree with its callees exchanged.
* `Node.Distinct.parent_unique`: nodes with the same child are the same.
-/

namespace ShaderSource

open List Node ShaderSource.Part

variable {n m c c' : Node} {last next : Nat}

/-- The identities of a node and of all nodes below it, in pre-order. -/
def Node.ids (n : Node) : List NodeId :=
  n.preorder.map Node.id

theorem Node.ids_eq (n : Node) : n.ids = n.id :: n.children.flatMap Node.ids := by
  rw [Node.ids, preorder_eq, map_cons, map_flatMap]
  rfl

theorem Node.mem_ids {i : NodeId} : i ∈ n.ids ↔ ∃ m ∈ n.preorder, m.id = i :=
  mem_map

theorem Node.id_mem_ids (h : m ∈ n.preorder) : m.id ∈ n.ids :=
  mem_map_of_mem h

/-- The nodes of a tree have distinct identities. -/
def Node.Distinct (n : Node) : Prop :=
  n.ids.Nodup

/-! ### Numbering -/

/-- The identities follow each other from the one after `last` up to `next`. -/
def Consecutive (last : Nat) (ids : List Nat) (next : Nat) : Prop :=
  ids = List.range' (last + 1) ids.length ∧ next = last + ids.length

namespace Consecutive

theorem nil (last : Nat) : Consecutive last [] last :=
  ⟨rfl, rfl⟩

theorem cons {ids : List Nat} (h : Consecutive (last + 1) ids next) :
    Consecutive last ((last + 1) :: ids) next := by
  obtain ⟨hids, hnext⟩ := h
  refine ⟨?_, by simp only [length_cons]; omega⟩
  rw [length_cons, range'_succ, ← hids]

theorem append {mid : Nat} {ids ids' : List Nat} (h : Consecutive last ids mid)
    (h' : Consecutive mid ids' next) : Consecutive last (ids ++ ids') next := by
  obtain ⟨hids, rfl⟩ := h
  obtain ⟨hids', rfl⟩ := h'
  refine ⟨?_, by simp only [length_append]; omega⟩
  rw [length_append, ← range'_append_1, ← hids,
    show last + 1 + ids.length = last + ids.length + 1 by omega, ← hids']

theorem nodup {ids : List Nat} (h : Consecutive last ids next) : ids.Nodup := by
  rw [h.1]
  exact nodup_range'

theorem mem {i : Nat} {ids : List Nat} (h : Consecutive last ids next) (hi : i ∈ ids) :
    last < i ∧ i ≤ next := by
  rw [h.1, mem_range'_1] at hi
  have := h.2
  omega

end Consecutive

theorem Node.numbers_consecutive {ns : List Node}
    (h : ∀ n ∈ ns, ∀ last, Consecutive last (n.number last).1.ids (n.number last).2)
    (last : NodeId) :
    Consecutive last ((Node.numbers last ns).1.flatMap Node.ids) (Node.numbers last ns).2 := by
  induction ns generalizing last with
  | nil => exact .nil last
  | cons n ns ih =>
    rw [forall_mem_cons] at h
    rw [Node.numbers, flatMap_cons]
    exact (h.1 last).append (ih h.2 _)

theorem Part.number_consecutive {p : Part}
    (h : ∀ n ∈ p.nodes, ∀ last, Consecutive last (n.number last).1.ids (n.number last).2)
    (last : NodeId) :
    Consecutive last ((p.number last).1.nodes.flatMap Node.ids) (p.number last).2 := by
  cases p with
  | text | token | optToken => exact .nil last
  | child n =>
    simpa [Part.number, nodes] using h n (by simp [nodes]) last
  | optChild n | branch _ n =>
    cases n with
    | none => exact .nil last
    | some n => simpa [Part.number, nodes] using h n (by simp [nodes]) last
  | list | separated => exact numbers_consecutive h last

theorem Part.numbers_consecutive {ps : List Part}
    (h : ∀ n ∈ ps.flatMap nodes, ∀ last,
      Consecutive last (n.number last).1.ids (n.number last).2) (last : NodeId) :
    Consecutive last (((Part.numbers last ps).1.flatMap nodes).flatMap Node.ids)
      (Part.numbers last ps).2 := by
  induction ps generalizing last with
  | nil => exact .nil last
  | cons p ps ih =>
    rw [flatMap_cons, forall_mem_append] at h
    rw [Part.numbers, flatMap_cons, flatMap_append]
    exact (Part.number_consecutive h.1 last).append (ih h.2 _)

/-- The identities of a numbered tree follow each other in pre-order. -/
theorem Node.number_consecutive (n : Node) (last : NodeId) :
    Consecutive last (n.number last).1.ids (n.number last).2 := by
  induction n using induction generalizing last with
  | h n ih =>
    obtain ⟨k, i, s, ps⟩ := n
    rw [children_mk] at ih
    rw [ids_eq, Node.number, children_mk]
    exact (Part.numbers_consecutive ih (last + 1)).cons

/-! ### Exchanging callees -/

@[simp] theorem Node.id_mk (k : Kind) (i : NodeId) (s : Option Span) (ps : List Part) :
    (Node.mk k i s ps).id = i :=
  rfl

@[simp] theorem Node.id_mapChildren (f : Node → Node) (n : Node) : (n.mapChildren f).id = n.id := by
  cases n
  rfl

theorem Node.id_exchangeCallees (callees : Registry NodeId NodeId) (n : Node) :
    (n.exchangeCallees callees).id = n.id := by
  rcases n.exchangeCallees_cases callees with h | ⟨_, _, _, _, _, rfl, -, h⟩
  · rw [h, id_mapChildren]
  · rw [h]
    rfl

theorem Node.span_mapChildren (f : Node → Node) (n : Node) : (n.mapChildren f).span = n.span := by
  cases n
  rfl

theorem Node.span_exchangeCallees (callees : Registry NodeId NodeId) (n : Node) :
    (n.exchangeCallees callees).span = n.span := by
  rcases n.exchangeCallees_cases callees with h | ⟨_, _, _, _, _, rfl, -, h⟩
  · rw [h, span_mapChildren]
  · rw [h]
    rfl

/-- The identities that a node can have once callees are exchanged: its own, and that of a new
callee. -/
def Node.idsWith (callees : Registry NodeId NodeId) (n : Node) : List NodeId :=
  n.preorder.flatMap fun m => m.id :: (callees.get? m.id).toList

theorem Node.idsWith_eq (callees : Registry NodeId NodeId) (n : Node) :
    n.idsWith callees =
      n.id :: (callees.get? n.id).toList ++ n.children.flatMap (idsWith callees) := by
  rw [idsWith, preorder_eq, flatMap_cons, flatMap_assoc]
  rfl

/-- The identities in a tree with its callees exchanged are among those of its nodes, each followed
by that of its new callee. -/
theorem Node.exchangeCallees_ids (callees : Registry NodeId NodeId) (n : Node) :
    (n.exchangeCallees callees).ids.Sublist (n.idsWith callees) := by
  induction n using induction with
  | h n ih =>
    have hchildren : ∀ ns : List Node, (∀ m ∈ ns, m ∈ n.children) →
        ((ns.map (Node.exchangeCallees callees)).flatMap Node.ids).Sublist
          (ns.flatMap (idsWith callees)) := by
      intro ns hns
      induction ns with
      | nil => exact List.Sublist.slnil
      | cons m ns ihns =>
        rw [forall_mem_cons] at hns
        rw [map_cons, flatMap_cons, flatMap_cons]
        exact (ih m hns.1).append (ihns hns.2)
    rw [ids_eq, idsWith_eq, id_exchangeCallees, cons_append]
    refine List.Sublist.cons_cons _ ?_
    rcases n.exchangeCallees_cases callees with h | ⟨id, span, callee, parts, fresh, rfl, hget, h⟩
    · rw [h, children_mapChildren]
      exact (hchildren n.children fun _ hm => hm).trans (sublist_append_right _ _)
    · rw [h, id_mk, hget, children_mk, children_mk, flatMap_cons,
        flatMap_cons, nodes_map_mapNodes, flatMap_append, flatMap_append]
      have hrest := hchildren (parts.flatMap nodes) fun m hm => by
        rw [children_mk, flatMap_cons]
        exact mem_append_right _ hm
      exact List.Sublist.cons_cons fresh (hrest.trans (sublist_append_right _ _))

/-- Identities stay distinct if those of the new callees are fresh and distinct. -/
theorem Node.Distinct.exchangeCallees {callees : Registry NodeId NodeId} (hn : n.Distinct)
    (hfresh : ∀ i v, callees.get? i = some v → v ∉ n.ids)
    (hinj : ∀ i j v, callees.get? i = some v → callees.get? j = some v → i = j) :
    (n.exchangeCallees callees).Distinct := by
  refine (n.exchangeCallees_ids callees).nodup ?_
  rw [idsWith, nodup_flatMap]
  constructor
  · intro m hm
    cases hget : callees.get? m.id with
    | none => simp
    | some v =>
      have hne : m.id ≠ v := fun h => hfresh _ v hget (h ▸ id_mem_ids hm)
      simpa using hne
  · refine (pairwise_map.mp hn).imp_of_mem fun {m m'} hm hm' hne => ?_
    change List.Disjoint _ _
    rw [disjoint_left]
    intro i hi hi'
    simp only [mem_cons, Option.mem_toList] at hi hi'
    rcases hi with rfl | hi
    · rcases hi' with hi' | hi'
      · exact hne hi'
      · exact hfresh _ _ hi' (id_mem_ids hm)
    · rcases hi' with rfl | hi'
      · exact hfresh _ _ hi (id_mem_ids hm')
      · exact hne (hinj _ _ _ hi hi')

/-- Only types are lost when callees are exchanged. -/
theorem Node.exchangeCallees_mem (callees : Registry NodeId NodeId) (hm : m ∈ n.preorder)
    (htype : m.kind ≠ .typeSpecifier) (hname : m.kind ≠ .typeName) :
    m.exchangeCallees callees ∈ (n.exchangeCallees callees).preorder := by
  induction n using induction with
  | h n ih =>
    rcases mem_preorder_iff.mp hm with rfl | ⟨c, hc, hmc⟩
    · exact mem_preorder_self _
    · have hmem := ih c hc hmc
      refine mem_preorder_of_mem_child (c := c.exchangeCallees callees) ?_ hmem
      rcases n.exchangeCallees_cases callees with h | ⟨id, span, callee, parts, fresh, rfl, hget, h⟩
      · rw [h, children_mapChildren]
        exact mem_map_of_mem hc
      · rw [children_mk, flatMap_cons, mem_append] at hc
        rw [h, children_mk, flatMap_cons, nodes_map_mapNodes]
        rcases hc with hc | hc
        · -- Below the old callee there are only types.
          obtain rfl : c = callee.node := by simpa [nodes] using hc
          simp only [PlainCallee.node, Node.preorder, Part.preorders, Part.preorder,
            Node.preorders, append_nil, mem_cons, not_mem_nil, or_false] at hmc
          rcases hmc with rfl | rfl
          · exact absurd rfl htype
          · exact absurd rfl hname
        · exact mem_append_right _ (mem_map_of_mem hc)

/-! ### Places -/

/-- A node is at one place only. -/
theorem Node.Distinct.eq_of_id {m' : Node} (hn : n.Distinct) (hm : m ∈ n.preorder)
    (hm' : m' ∈ n.preorder) (h : m.id = m'.id) : m = m' :=
  inj_on_of_nodup_map hn hm hm' h

theorem Node.Distinct.below (hn : n.Distinct) (hm : m ∈ n.preorder) : m.Distinct := by
  refine topDown hn (fun k _ hk c hc => ?_) hm
  rw [Distinct, ids_eq, nodup_cons, nodup_flatMap] at hk
  exact hk.2.1 c hc

/-- No node below another has its identity. -/
theorem Node.Distinct.id_ne (hn : n.Distinct) (hc : c ∈ n.children) (hm : m ∈ c.preorder) :
    m.id ≠ n.id := by
  rw [Distinct, ids_eq, nodup_cons, mem_flatMap] at hn
  intro h
  exact hn.1 ⟨c, hc, h ▸ id_mem_ids hm⟩

/-- Nodes with the same identity are below the same child. -/
theorem Node.Distinct.child_unique {m' : Node} (hn : n.Distinct) (hc : c ∈ n.children)
    (hc' : c' ∈ n.children) (hm : m ∈ c.preorder) (hm' : m' ∈ c'.preorder) (h : m.id = m'.id) :
    c = c' := by
  rw [Distinct, ids_eq, nodup_cons, nodup_flatMap] at hn
  by_contra hne
  have : Std.Symm (Function.onFun List.Disjoint Node.ids) := ⟨fun _ _ h _ ha hb => h hb ha⟩
  have hdisjoint := hn.2.2.forall hc hc' hne
  exact hdisjoint (id_mem_ids hm) (h ▸ id_mem_ids hm')

/-- A child of a node has not the identity of a node further below. -/
theorem Node.Distinct.id_ne_of_further {d p : Node} (hn : n.Distinct) (hc : c ∈ n.children)
    (hd : d ∈ n.children) (hp : p ∈ d.preorder) (hc' : c' ∈ p.children) : c.id ≠ c'.id := by
  intro h
  obtain ⟨e, he, hmem⟩ : ∃ e ∈ d.children, c' ∈ e.preorder := by
    rcases mem_preorder_iff.mp hp with rfl | ⟨e, he, hpe⟩
    · exact ⟨c', hc', c'.mem_preorder_self⟩
    · exact ⟨e, he, mem_preorder_of_mem_children hpe hc'⟩
  obtain rfl := hn.child_unique hc hd c.mem_preorder_self
    (mem_preorder_of_mem_child he hmem) h
  have hdistinct := hn.below (child_mem_preorder hc)
  exact hdistinct.id_ne he hmem h.symm

/-- Nodes with the same child are the same. -/
theorem Node.Distinct.parent_unique {p p' : Node} (hn : n.Distinct) (hp : p ∈ n.preorder)
    (hp' : p' ∈ n.preorder) (hc : c ∈ p.children) (hc' : c' ∈ p'.children) (h : c.id = c'.id) :
    p = p' := by
  induction n using induction with
  | h n ih =>
    rcases mem_preorder_iff.mp hp with rfl | ⟨d, hd, hpd⟩
    · rcases mem_preorder_iff.mp hp' with rfl | ⟨d', hd', hpd'⟩
      · rfl
      · exact absurd h (hn.id_ne_of_further hc hd' hpd' hc')
    · rcases mem_preorder_iff.mp hp' with rfl | ⟨d', hd', hpd'⟩
      · exact absurd h.symm (hn.id_ne_of_further hc' hd hpd hc)
      · have hbelow := mem_preorder_of_mem_children hpd hc
        have hbelow' := mem_preorder_of_mem_children hpd' hc'
        obtain rfl := hn.child_unique hd hd' hbelow hbelow' h
        exact ih d hd (hn.below (child_mem_preorder hd)) hpd hpd'

end ShaderSource
