import Mathlib.Data.List.Forall2
import ShaderSource.Scope.Binding
import ShaderSource.Tree.Numbering

/-!
# Trees through their children

Functions on trees recurse over nodes, lists of parts, parts and lists of nodes together. Proofs
about them need not: what such a function does at a node depends on the node and on the nodes right
below it. This module gives the functions in that form, and an induction that goes from the nodes
right below to the node.

Operations that keep the form of a tree yield parts that are alike: tokens and texts are the same
and the nodes in them correspond one to one.

## Main results

* `Node.induction`: a property that passes from the children to the node holds of all nodes.
* `Node.preorder_eq`: a node comes first, then what is below it, child by child.
* `Node.number_alike`: numbering keeps the form of a tree.
* `Node.exchangeCallees_cases`: what exchanging callees does to a node.
* `Node.mem_number`, `Node.mem_exchangeCallees`: what is in a tree after that.
-/

namespace ShaderSource

open List Node ShaderSource.Part

variable {p : Part} {n m c : Node} {f : Node → Node} {ps : List Part}

/-! ### Children -/

/-- The nodes in a part. -/
def Part.nodes : Part → List Node
  | .text _ => []
  | .token _ => []
  | .optToken _ => []
  | .child n => [n]
  | .optChild n => n.toList
  | .list ns => ns
  | .separated ns _ => ns
  | .branch _ n => n.toList

@[simp] theorem Node.children_mk (k : Kind) (i : NodeId) (s : Option Span) (ps : List Part) :
    (Node.mk k i s ps).children = ps.flatMap nodes := by
  simp only [children, slots, Node.parts]
  induction ps with
  | nil => rfl
  | cons p ps ih =>
    cases p with
    | text | token | optToken =>
      simpa [filterMap_cons, slot?, nodes] using ih
    | child | optChild | list | separated | branch =>
      simpa [filterMap_cons, slot?, nodes, Slot.nodes] using ih

theorem Part.sizeOf_lt_of_mem_nodes (h : n ∈ p.nodes) : sizeOf n < sizeOf p := by
  cases p with
  | text | token | optToken => simp [nodes] at h
  | child m =>
    obtain rfl : n = m := by simpa [nodes] using h
    simp
  | optChild m =>
    obtain rfl : m = some n := by simpa [nodes] using h
    simp only [optChild.sizeOf_spec, Option.some.sizeOf_spec]
    omega
  | branch t m =>
    obtain rfl : m = some n := by simpa [nodes] using h
    simp only [branch.sizeOf_spec, Option.some.sizeOf_spec]
    omega
  | list ns | separated ns _ =>
    have hlt := sizeOf_lt_of_mem (show n ∈ ns from h)
    simp
    omega

theorem Node.sizeOf_lt_of_mem_children (h : m ∈ n.children) : sizeOf m < sizeOf n := by
  obtain ⟨k, i, s, ps⟩ := n
  rw [children_mk, mem_flatMap] at h
  obtain ⟨p, hp, hm⟩ := h
  have hpart := sizeOf_lt_of_mem hp
  have hnode := sizeOf_lt_of_mem_nodes hm
  simp only [mk.sizeOf_spec]
  omega

/-- A property that passes from the children to the node holds of all nodes. -/
theorem Node.induction {P : Node → Prop} (h : ∀ n, (∀ m ∈ n.children, P m) → P n) (n : Node) :
    P n :=
  h n fun m hm =>
    have := sizeOf_lt_of_mem_children hm
    induction h m
termination_by sizeOf n

/-! ### Pre-order -/

theorem Node.preorders_eq (ns : List Node) : Node.preorders ns = ns.flatMap Node.preorder := by
  induction ns with
  | nil => simp [Node.preorders]
  | cons n ns ih => simp [Node.preorders, ih]

theorem Part.preorder_eq (p : Part) : p.preorder = p.nodes.flatMap Node.preorder := by
  cases p with
  | text | token | optToken | child => simp [Part.preorder, nodes]
  | optChild m | branch _ m => cases m <;> simp [Part.preorder, nodes]
  | list | separated => simp [Part.preorder, nodes, preorders_eq]

theorem Part.preorders_eq (ps : List Part) :
    Part.preorders ps = (ps.flatMap nodes).flatMap Node.preorder := by
  induction ps with
  | nil => simp [Part.preorders]
  | cons p ps ih => simp [Part.preorders, ih, preorder_eq, flatMap_append]

/-- A node comes first, then what is below it, child by child. -/
theorem Node.preorder_eq (n : Node) : n.preorder = n :: n.children.flatMap Node.preorder := by
  obtain ⟨k, i, s, ps⟩ := n
  rw [Node.preorder, Part.preorders_eq, children_mk]

theorem Node.mem_preorder_self (n : Node) : n ∈ n.preorder := by
  rw [preorder_eq]
  exact mem_cons_self

theorem Node.mem_preorder_iff : m ∈ n.preorder ↔ m = n ∨ ∃ c ∈ n.children, m ∈ c.preorder := by
  rw [preorder_eq, mem_cons, mem_flatMap]

theorem Node.mem_preorder_of_mem_child (hc : c ∈ n.children) (hm : m ∈ c.preorder) :
    m ∈ n.preorder :=
  mem_preorder_iff.mpr (.inr ⟨c, hc, hm⟩)

/-- What is below a node is below all nodes above it. -/
theorem Node.mem_preorder_trans {l : Node} (hm : m ∈ n.preorder) (hl : l ∈ m.preorder) :
    l ∈ n.preorder := by
  induction n using induction with
  | h n ih =>
    rcases mem_preorder_iff.mp hm with rfl | ⟨c, hc, hmc⟩
    · exact hl
    · exact mem_preorder_of_mem_child hc (ih c hc hmc)

/-- What holds of the root and passes from a node to the nodes right below it, holds of all. -/
theorem Node.topDown {P : Node → Prop} {root : Node} (hroot : P root)
    (hstep : ∀ n ∈ root.preorder, P n → ∀ c ∈ n.children, P c)
    (hm : m ∈ root.preorder) : P m := by
  induction root using induction with
  | h n ih =>
    rcases mem_preorder_iff.mp hm with rfl | ⟨c, hc, hmc⟩
    · exact hroot
    · refine ih c hc (hstep n n.mem_preorder_self hroot c hc) (fun n' hn' => ?_) hmc
      exact hstep n' (mem_preorder_of_mem_child hc hn')

theorem Node.child_mem_preorder (hc : c ∈ n.children) : c ∈ n.preorder :=
  mem_preorder_of_mem_child hc c.mem_preorder_self

theorem Node.mem_preorder_of_mem_children {root : Node} (hn : n ∈ root.preorder)
    (hc : c ∈ n.children) : c ∈ root.preorder :=
  mem_preorder_trans hn (child_mem_preorder hc)

/-- In pre-order, what is below a node comes after it. -/
theorem Node.mem_of_preorder_eq {l : Node} {ns ms : List Node} (h : n.preorder = ns ++ m :: ms)
    (hl : l ∈ m.preorder) : l ∈ m :: ms := by
  induction n using induction generalizing ns ms with
  | h n ih =>
    have hlist : ∀ cs : List Node, (∀ c ∈ cs, c ∈ n.children) → ∀ ns,
        cs.flatMap Node.preorder = ns ++ m :: ms → l ∈ m :: ms := by
      intro cs hcs
      induction cs with
      | nil =>
        intro ns heq
        cases ns <;> cases heq
      | cons c cs ihcs =>
        intro ns heq
        rw [forall_mem_cons] at hcs
        rw [flatMap_cons, append_eq_append_iff] at heq
        rcases heq with ⟨rest, -, heq⟩ | ⟨rest, hc, heq⟩
        · exact ihcs hcs.2 rest heq
        · cases rest with
          | nil => exact ihcs hcs.2 [] heq.symm
          | cons m' rest =>
            obtain ⟨rfl, rfl⟩ := cons.inj heq
            exact mem_append_left _ (ih c hcs.1 hc)
    rw [preorder_eq] at h
    cases ns with
    | nil =>
      obtain ⟨rfl, rfl⟩ := cons.inj h
      rwa [← preorder_eq]
    | cons _ ns => exact hlist n.children (fun _ hc => hc) ns (cons.inj h).2

/-! ### What holds everywhere -/

/-- Something holds of a node and of all nodes below it. -/
def Node.All (P : Node → Prop) (n : Node) : Prop :=
  ∀ m ∈ n.preorder, P m

section All

variable {P : Node → Prop}

theorem Node.all_iff : n.All P ↔ P n ∧ ∀ c ∈ n.children, c.All P := by
  unfold Node.All
  constructor
  · intro h
    exact ⟨h n n.mem_preorder_self,
      fun c hc m hm => h m (mem_preorder_of_mem_child hc hm)⟩
  · rintro ⟨hn, hchildren⟩ m hm
    rcases mem_preorder_iff.mp hm with rfl | ⟨c, hc, hmc⟩
    · exact hn
    · exact hchildren c hc m hmc

theorem Node.all_mk {kind : Kind} {id : NodeId} {span : Option Span}
    (h : P (.mk kind id span ps)) (hps : ∀ n ∈ ps.flatMap nodes, n.All P) :
    (Node.mk kind id span ps).All P := by
  rw [all_iff, children_mk]
  exact ⟨h, hps⟩

end All

/-! ### Separators -/

/-- Whether the separators of the part are in step with its nodes: one between two neighbours, and
at most one behind the last. -/
def Part.inStep : Part → Bool
  | .separated ns ts => ts.length ≤ ns.length && ns.length ≤ ts.length + 1
  | _ => true

/-- All parts of a node and of the nodes below it have their separators in step. -/
def Node.InStep (n : Node) : Prop :=
  ∀ m ∈ n.preorder, ∀ p ∈ m.parts, p.inStep = true

theorem Node.InStep.child (h : n.InStep) (hc : c ∈ n.children) : c.InStep :=
  fun m hm => h m (mem_preorder_of_mem_child hc hm)

/-! ### Parts that are alike -/

/-- Two parts are alike if they differ only in their nodes, and these correspond. -/
inductive Part.Alike (R : Node → Node → Prop) : Part → Part → Prop
  | text {s} : Part.Alike R (.text s) (.text s)
  | token {t} : Part.Alike R (.token t) (.token t)
  | optToken {t} : Part.Alike R (.optToken t) (.optToken t)
  | child {n m : Node} : R n m → Part.Alike R (.child n) (.child m)
  | noChild : Part.Alike R (.optChild none) (.optChild none)
  | optChild {n m : Node} : R n m → Part.Alike R (.optChild (some n)) (.optChild (some m))
  | list {ns ms} : List.Forall₂ R ns ms → Part.Alike R (.list ns) (.list ms)
  | separated {ns ms ts} :
      List.Forall₂ R ns ms → Part.Alike R (.separated ns ts) (.separated ms ts)
  | noBranch {t} : Part.Alike R (.branch t none) (.branch t none)
  | branch {t} {n m : Node} : R n m → Part.Alike R (.branch t (some n)) (.branch t (some m))

/-- A part with its nodes changed. -/
def Part.mapNodes (f : Node → Node) : Part → Part
  | .text s => .text s
  | .token t => .token t
  | .optToken t => .optToken t
  | .child n => .child (f n)
  | .optChild n => .optChild (n.map f)
  | .list ns => .list (ns.map f)
  | .separated ns ts => .separated (ns.map f) ts
  | .branch t n => .branch t (n.map f)

/-- A node with the nodes right below it changed. -/
def Node.mapChildren (f : Node → Node) : Node → Node
  | .mk k i s ps => .mk k i s (ps.map (mapNodes f))

theorem Part.mapNodes_congr {g : Node → Node} (h : ∀ n ∈ p.nodes, f n = g n) :
    p.mapNodes f = p.mapNodes g := by
  cases p with
  | text | token | optToken => rfl
  | child n => simp [mapNodes, h n (by simp [nodes])]
  | optChild n | branch _ n =>
    cases n with
    | none => rfl
    | some n => simp [mapNodes, h n (by simp [nodes])]
  | list ns | separated ns _ => simpa [mapNodes, nodes] using h

theorem Part.mapNodes_mapNodes (f g : Node → Node) (p : Part) :
    (p.mapNodes f).mapNodes g = p.mapNodes fun n => g (f n) := by
  cases p with
  | optChild n | branch _ n => cases n <;> rfl
  | _ => simp [mapNodes]

theorem Part.mapNodes_id (p : Part) : (p.mapNodes fun n => n) = p := by
  cases p with
  | optChild n | branch _ n => cases n <;> rfl
  | _ => simp [mapNodes]

theorem Node.mapChildren_congr {g : Node → Node} (h : ∀ c ∈ n.children, f c = g c) :
    n.mapChildren f = n.mapChildren g := by
  obtain ⟨k, i, s, ps⟩ := n
  rw [children_mk] at h
  rw [mapChildren, mapChildren]
  congr 1
  refine map_congr_left fun p hp => mapNodes_congr fun n hn => h n ?_
  exact mem_flatMap.mpr ⟨p, hp, hn⟩

theorem Node.mapChildren_mapChildren (f g : Node → Node) (n : Node) :
    (n.mapChildren f).mapChildren g = n.mapChildren fun c => g (f c) := by
  cases n
  simp [mapChildren, mapNodes_mapNodes]

theorem Node.mapChildren_id (n : Node) : (n.mapChildren fun c => c) = n := by
  obtain ⟨k, i, s, ps⟩ := n
  rw [mapChildren, map_congr_left fun p _ => mapNodes_id p, map_id']

theorem Part.nodes_mapNodes (f : Node → Node) (p : Part) :
    (p.mapNodes f).nodes = p.nodes.map f := by
  cases p with
  | optChild n | branch _ n => cases n <;> rfl
  | _ => rfl

theorem Part.nodes_map_mapNodes (f : Node → Node) (ps : List Part) :
    (ps.map (mapNodes f)).flatMap nodes = (ps.flatMap nodes).map f := by
  rw [flatMap_map, map_flatMap]
  exact flatMap_congr fun p _ => nodes_mapNodes f p

theorem Node.children_mapChildren (f : Node → Node) (n : Node) :
    (n.mapChildren f).children = n.children.map f := by
  obtain ⟨k, i, s, ps⟩ := n
  rw [mapChildren, children_mk, children_mk, nodes_map_mapNodes]

variable {R : Node → Node → Prop}

/-- A member of the second of two lists that correspond has a counterpart in the first. -/
theorem exists_counterpart {α β : Type} {S : α → β → Prop} {l : List α} {l' : List β} {b : β}
    (h : List.Forall₂ S l l') (hb : b ∈ l') : ∃ a ∈ l, S a b := by
  induction h with
  | nil => cases hb
  | cons hab _ ih =>
    rcases mem_cons.mp hb with rfl | hb
    · exact ⟨_, mem_cons_self, hab⟩
    · obtain ⟨a, ha, hS⟩ := ih hb
      exact ⟨a, mem_cons_of_mem _ ha, hS⟩

theorem Part.mapNodes_alike (h : ∀ n ∈ p.nodes, R n (f n)) : Part.Alike R p (p.mapNodes f) := by
  have hlist : ∀ ns : List Node, (∀ n ∈ ns, R n (f n)) → List.Forall₂ R ns (ns.map f) := by
    intro ns hns
    rw [forall₂_map_right_iff, forall₂_same]
    exact hns
  cases p with
  | text => exact .text
  | token => exact .token
  | optToken => exact .optToken
  | child n => exact .child (h n (by simp [nodes]))
  | optChild n =>
    cases n with
    | none => exact .noChild
    | some n => exact .optChild (h n (by simp [nodes]))
  | list ns => exact .list (hlist ns h)
  | separated ns ts => exact .separated (hlist ns h)
  | branch t n =>
    cases n with
    | none => exact .noBranch
    | some n => exact .branch (h n (by simp [nodes]))

theorem Part.mapNodes_alike_all (h : ∀ n ∈ ps.flatMap nodes, R n (f n)) :
    List.Forall₂ (Part.Alike R) ps (ps.map (mapNodes f)) := by
  rw [forall₂_map_right_iff, forall₂_same]
  intro p hp
  exact mapNodes_alike fun n hn => h n (mem_flatMap.mpr ⟨p, hp, hn⟩)

/-- Alike parts hold nodes that correspond. -/
theorem Part.Alike.nodes {q : Part} (h : Part.Alike R p q) : List.Forall₂ R p.nodes q.nodes := by
  cases h with
  | text | token | optToken | noChild | noBranch => exact .nil
  | child h | optChild h | branch h => exact .cons h .nil
  | list h | separated h => exact h

theorem Part.alike_nodes {qs : List Part} (h : List.Forall₂ (Part.Alike R) ps qs) :
    List.Forall₂ R (ps.flatMap nodes) (qs.flatMap nodes) := by
  induction h with
  | nil => exact .nil
  | cons hp _ ih =>
    rw [flatMap_cons, flatMap_cons]
    exact rel_append hp.nodes ih

/-! ### Numbering -/

theorem Node.numbers_alike {ns : List Node} (h : ∀ n ∈ ns, ∀ last, R n (n.number last).1)
    (last : NodeId) : List.Forall₂ R ns (Node.numbers last ns).1 := by
  induction ns generalizing last with
  | nil => exact .nil
  | cons n ns ih =>
    rw [forall_mem_cons] at h
    exact .cons (h.1 last) (ih h.2 _)

theorem Part.number_alike (h : ∀ n ∈ p.nodes, ∀ last, R n (n.number last).1) (last : NodeId) :
    Part.Alike R p (p.number last).1 := by
  cases p with
  | text => exact .text
  | token => exact .token
  | optToken => exact .optToken
  | child n => exact .child (h n (by simp [nodes]) last)
  | optChild n =>
    cases n with
    | none => exact .noChild
    | some n => exact .optChild (h n (by simp [nodes]) last)
  | list ns => exact .list (numbers_alike h last)
  | separated ns ts => exact .separated (numbers_alike h last)
  | branch t n =>
    cases n with
    | none => exact .noBranch
    | some n => exact .branch (h n (by simp [nodes]) last)

/-- Numbering keeps the form of a tree: if numbered children correspond to what they were, so do
all parts. -/
theorem Node.number_alike (h : ∀ n ∈ ps.flatMap nodes, ∀ last, R n (n.number last).1)
    (last : NodeId) : List.Forall₂ (Part.Alike R) ps (Part.numbers last ps).1 := by
  induction ps generalizing last with
  | nil => exact .nil
  | cons p ps ih =>
    rw [flatMap_cons, forall_mem_append] at h
    exact .cons (Part.number_alike h.1 last) (ih h.2 _)

theorem Node.children_number (n : Node) {R : Node → Node → Prop}
    (h : ∀ c ∈ n.children, ∀ last, R c (c.number last).1) (last : NodeId) :
    List.Forall₂ R n.children (n.number last).1.children := by
  obtain ⟨k, i, s, ps⟩ := n
  rw [Node.number, children_mk, children_mk]
  rw [children_mk] at h
  exact alike_nodes (number_alike h (last + 1))

/-- What is in a numbered tree: numbered nodes of the tree. -/
theorem Node.mem_number {last : NodeId} (h : m ∈ (n.number last).1.preorder) :
    ∃ m' ∈ n.preorder, ∃ last', m = (m'.number last').1 := by
  induction n using induction generalizing last with
  | h n ih =>
    rcases mem_preorder_iff.mp h with rfl | ⟨c, hc, hmc⟩
    · exact ⟨n, n.mem_preorder_self, last, rfl⟩
    · obtain ⟨c', hc', last', rfl⟩ := exists_counterpart
        (n.children_number (R := fun c c' => ∃ last, c' = (c.number last).1)
          (fun _ _ last => ⟨last, rfl⟩) last) hc
      obtain ⟨m', hm', hm⟩ := ih c' hc' hmc
      exact ⟨m', mem_preorder_of_mem_child hc' hm', hm⟩

/-! ### Exchanging callees -/

theorem Node.exchangeCalleesAll_eq (callees : Registry NodeId NodeId) (ns : List Node) :
    Node.exchangeCalleesAll callees ns = ns.map (Node.exchangeCallees callees) := by
  induction ns with
  | nil => simp [Node.exchangeCalleesAll]
  | cons n ns ih => simp [Node.exchangeCalleesAll, ih]

theorem Part.exchangeCallees_eq (callees : Registry NodeId NodeId) (p : Part) :
    p.exchangeCallees callees = p.mapNodes (Node.exchangeCallees callees) := by
  cases p with
  | text | token | optToken | child => simp [Part.exchangeCallees, mapNodes]
  | optChild n | branch _ n => cases n <;> simp [Part.exchangeCallees, mapNodes]
  | list | separated => simp [Part.exchangeCallees, mapNodes, exchangeCalleesAll_eq]

theorem Part.exchangeCalleesAll_eq (callees : Registry NodeId NodeId) (ps : List Part) :
    Part.exchangeCalleesAll callees ps =
      ps.map (mapNodes (Node.exchangeCallees callees)) := by
  induction ps with
  | nil => simp [Part.exchangeCalleesAll]
  | cons p ps ih => simp [Part.exchangeCalleesAll, ih, exchangeCallees_eq]

/-- The leaf with a name, of the given kind. -/
def Node.leaf (kind : Kind) (id : NodeId) (span : Option Span) (t : Token) : Node :=
  .mk kind id span [.token t]

/-- The callee of a call as it is read: a name in the place of a type, without dimensions. -/
structure PlainCallee where
  id : NodeId
  span : Option Span
  name : NodeId
  nameSpan : Option Span
  token : Token

namespace PlainCallee

/-- The callee as a node of the tree. -/
def node (callee : PlainCallee) : Node :=
  .mk .typeSpecifier callee.id callee.span
    [.child (.mk .typeName callee.name callee.nameSpan [.token callee.token]), .list []]

theorem exchangeCallees_node (callees : Registry NodeId NodeId) (callee : PlainCallee) :
    callee.node.exchangeCallees callees = callee.node := by
  simp [node, Node.exchangeCallees, Part.exchangeCalleesAll_eq, mapNodes]

end PlainCallee

/-- What exchanging callees does to a node: a call whose callee is to be exchanged gets a new one,
and at any other node only the nodes right below it change. -/
theorem Node.exchangeCallees_cases (callees : Registry NodeId NodeId) (n : Node) :
    n.exchangeCallees callees = n.mapChildren (Node.exchangeCallees callees) ∨
      ∃ id span, ∃ callee : PlainCallee, ∃ parts fresh,
        n = .mk .functionCall id span (.child callee.node :: parts) ∧
        callees.get? id = some fresh ∧
        n.exchangeCallees callees = .mk .functionCall id span
          (.child (.mk .identifier fresh callee.span [.token callee.token]) ::
            parts.map (mapNodes (Node.exchangeCallees callees))) := by
  rw [Node.exchangeCallees.eq_def]
  split
  · rename_i id span callee calleeSpan name nameSpan t parts
    cases hget : callees.get? id with
    | none =>
      left
      have hcallee := PlainCallee.exchangeCallees_node callees
        ⟨callee, calleeSpan, name, nameSpan, t⟩
      simp only [PlainCallee.node] at hcallee
      simp [mapChildren, mapNodes, Part.exchangeCalleesAll_eq, hcallee]
    | some fresh =>
      right
      exact ⟨id, span, ⟨callee, calleeSpan, name, nameSpan, t⟩, parts, fresh, rfl, hget,
        by simp [Part.exchangeCalleesAll_eq]⟩
  · left
    simp [mapChildren, Part.exchangeCalleesAll_eq]

/-- What is in a tree with its callees exchanged: nodes that were there, and new callees. -/
theorem Node.mem_exchangeCallees (callees : Registry NodeId NodeId)
    (h : m ∈ (n.exchangeCallees callees).preorder) :
    (∃ m' ∈ n.preorder, m = m'.exchangeCallees callees) ∨
      ∃ site fresh span t, callees.get? site = some fresh ∧
        m = leaf .identifier fresh span t := by
  induction n using induction with
  | h n ih =>
    rcases mem_preorder_iff.mp h with rfl | ⟨c, hc, hmc⟩
    · exact .inl ⟨n, n.mem_preorder_self, rfl⟩
    · have hold : ∀ c' ∈ n.children, c = c'.exchangeCallees callees →
          (∃ m' ∈ n.preorder, m = m'.exchangeCallees callees) ∨
            ∃ site fresh span t, callees.get? site = some fresh ∧
              m = leaf .identifier fresh span t := by
        rintro c' hc' rfl
        rcases ih c' hc' hmc with ⟨m', hm', heq⟩ | hnew
        · exact .inl ⟨m', mem_preorder_of_mem_child hc' hm', heq⟩
        · exact .inr hnew
      rcases n.exchangeCallees_cases callees with
        heq | ⟨id, span, callee, parts, fresh, rfl, hget, heq⟩
      · rw [heq, children_mapChildren] at hc
        obtain ⟨c', hc', rfl⟩ := mem_map.mp hc
        exact hold c' hc' rfl
      · rw [heq, children_mk, flatMap_cons, nodes_map_mapNodes,
          mem_append] at hc
        rcases hc with hc | hc
        · obtain rfl := mem_singleton.mp hc
          refine .inr ⟨id, fresh, callee.span, callee.token, hget, ?_⟩
          simpa [Node.preorder, Part.preorders, Part.preorder, leaf] using hmc
        · obtain ⟨c', hc', rfl⟩ := mem_map.mp hc
          refine hold c' ?_ rfl
          rw [children_mk, flatMap_cons]
          exact mem_append_right _ hc'

end ShaderSource
