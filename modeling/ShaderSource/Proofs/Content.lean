import ShaderSource.Proofs.Exchange

/-!
# The content of a tree

A tree that is read has callees that read like types, and identities and spans that say where its
nodes came from. Its content is what is left when these are dropped and all that is called by a
name alone is taken for a function. Numbering and binding do not change the content of a tree; once
all callees are exchanged, trees of the same content are the same.

## Main results

* `Node.content_number`: numbering keeps the content.
* `Node.AllFit.erase_exchangeCallees`: a tree in which all callees are exchanged is its content.
* `Node.same_of_erase`: trees that are the same up to identities and spans have the same content.
-/

namespace ShaderSource

open List Node ShaderSource.Part

mutual

/-- The tree without its identities and spans. -/
def Node.erase : Node → Node
  | .mk kind _ _ parts => .mk kind NodeId.detached none (Part.eraseAll parts)

/-- Parts without identities and spans. -/
def Part.eraseAll : List Part → List Part
  | [] => []
  | p :: ps => p.erase :: Part.eraseAll ps

/-- The part without identities and spans. -/
def Part.erase : Part → Part
  | .text s => .text s
  | .token t => .token t
  | .optToken t => .optToken t
  | .child n => .child n.erase
  | .optChild none => .optChild none
  | .optChild (some n) => .optChild (some n.erase)
  | .list ns => .list (Node.eraseAll ns)
  | .separated ns separators => .separated (Node.eraseAll ns) separators
  | .branch word none => .branch word none
  | .branch word (some n) => .branch word (some n.erase)

/-- Nodes without identities and spans. -/
def Node.eraseAll : List Node → List Node
  | [] => []
  | n :: ns => n.erase :: Node.eraseAll ns

end

theorem Node.eraseAll_eq (ns : List Node) : Node.eraseAll ns = ns.map Node.erase := by
  induction ns with
  | nil => simp [Node.eraseAll]
  | cons n ns ih => simp [Node.eraseAll, ih]

theorem Part.erase_eq (p : Part) : p.erase = p.mapNodes Node.erase := by
  cases p with
  | optChild n | branch _ n => cases n <;> simp [Part.erase, mapNodes]
  | _ => simp [Part.erase, mapNodes, eraseAll_eq]

theorem Node.erase_mk (kind : Kind) (id : NodeId) (span : Option Span) (ps : List Part) :
    (Node.mk kind id span ps).erase =
      .mk kind NodeId.detached none (ps.map (mapNodes Node.erase)) := by
  rw [Node.erase]
  congr 1
  induction ps with
  | nil => simp [Part.eraseAll]
  | cons p ps ih => simp [Part.eraseAll, ih, erase_eq]

/-- The registry in which every call of a tree without identities has a new callee. -/
def Node.everyCallee : Registry NodeId NodeId :=
  [(NodeId.detached, NodeId.detached)]

/-- What a tree comes to when all that is called by its name alone is a function, without
identities and spans. -/
def Node.content (n : Node) : Node :=
  n.erase.exchangeCallees everyCallee

section Erase

variable {n : Node}

theorem Node.kind_erase (n : Node) : n.erase.kind = n.kind := by
  obtain ⟨k, i, s, ps⟩ := n
  rw [erase_mk]
  rfl

theorem Node.field_erase (n : Node) (i : Nat) : n.erase.field i = (n.field i).map Node.erase := by
  obtain ⟨k, id, s, ps⟩ := n
  rw [erase_mk]
  exact field_mapChildren Node.erase (.mk k id s ps) i

theorem Node.along_erase (n : Node) (path : List Nat) :
    n.erase.along path = (n.along path).map Node.erase := by
  induction path generalizing n with
  | nil => rfl
  | cons i path ih =>
    rw [along, along, field_erase, flatMap_map, map_flatMap]
    exact flatMap_congr fun c _ => ih c

theorem Node.isPlainCall_erase (n : Node) : n.erase.isPlainCall = n.isPlainCall := by
  have hkinds : ∀ ns : List Node, (ns.map Node.erase).map Node.kind = ns.map Node.kind := by
    intro ns
    rw [map_map]
    exact map_congr_left fun m _ => m.kind_erase
  unfold isPlainCall
  rw [field_erase, along_erase, along_erase, hkinds, hkinds, kind_erase,
    isEmpty_map]

/-- The content of a node is that of its parts, unless it is called by its name alone. -/
theorem Node.content_of_not (h : n.isPlainCall = false) :
    n.content = .mk n.kind NodeId.detached none (n.parts.map (mapNodes content)) := by
  have hnot : n.erase.isPlainCall = true → everyCallee.get? n.erase.id = none := by
    rw [isPlainCall_erase, h]
    rintro ⟨⟩
  rw [content, exchangeCallees_of_not hnot]
  obtain ⟨k, id, s, ps⟩ := n
  rw [erase_mk, mapChildren, map_map]
  refine congrArg _ (map_congr_left fun p _ => ?_)
  exact mapNodes_mapNodes _ _ p

theorem Node.content_mk {kind : Kind} (hkind : kind ≠ .functionCall) (id : NodeId)
    (span : Option Span) (ps : List Part) :
    (Node.mk kind id span ps).content =
      .mk kind NodeId.detached none (ps.map (mapNodes content)) :=
  content_of_not (by simp [isPlainCall, hkind])

theorem Node.content_method {callee : Node} (hcallee : callee.kind ≠ .typeSpecifier) (id : NodeId)
    (span : Option Span) (ps : List Part) :
    (Node.mk .functionCall id span (.child callee :: ps)).content =
      .mk .functionCall NodeId.detached none
        ((Part.child callee :: ps).map (mapNodes content)) :=
  content_of_not (by simp [isPlainCall, nodes, hcallee])

theorem Node.content_call (id : NodeId) (span : Option Span) (callee : PlainCallee)
    (ps : List Part) : (Node.mk .functionCall id span (.child callee.node :: ps)).content =
      .mk .functionCall NodeId.detached none
        (.child (leaf .identifier NodeId.detached none callee.token) ::
          ps.map (mapNodes content)) := by
  have herase : callee.node.erase =
      PlainCallee.node ⟨NodeId.detached, none, NodeId.detached, none, callee.token⟩ := by
    simp [PlainCallee.node, erase_mk, mapNodes]
  have hget : everyCallee.get? NodeId.detached = some NodeId.detached := rfl
  rw [content, erase_mk, map_cons, mapNodes, herase,
    exchangeCallees_call _ hget, map_map]
  refine congrArg _ (congrArg _ (map_congr_left fun p _ => ?_))
  exact mapNodes_mapNodes _ _ p

/-! ### Numbering and binding -/

theorem Part.Alike.mapNodes_eq {f : Node → Node} {p q : Part}
    (h : Part.Alike (fun n m => f m = f n) p q) : q.mapNodes f = p.mapNodes f := by
  have hlist : ∀ {ns ms : List Node}, List.Forall₂ (fun n m => f m = f n) ns ms →
      ms.map f = ns.map f := by
    intro ns ms h
    induction h with
    | nil => rfl
    | cons hn _ ih => rw [map_cons, map_cons, hn, ih]
  cases h with
  | text | token | optToken | noChild | noBranch => rfl
  | child h | optChild h | branch h => simp [mapNodes, h]
  | list h | separated h => simp [mapNodes, hlist h]

theorem Part.mapNodes_eq_all {f : Node → Node} {ps qs : List Part}
    (h : List.Forall₂ (Part.Alike fun n m => f m = f n) ps qs) :
    qs.map (mapNodes f) = ps.map (mapNodes f) := by
  induction h with
  | nil => rfl
  | cons hp _ ih => rw [map_cons, map_cons, hp.mapNodes_eq, ih]

theorem Node.erase_number (n : Node) (last : NodeId) : (n.number last).1.erase = n.erase := by
  induction n using induction generalizing last with
  | h n ih =>
    obtain ⟨k, i, s, ps⟩ := n
    rw [children_mk] at ih
    have halike := number_alike (R := fun n m => m.erase = n.erase)
      (fun n hn last => ih n hn last) (last + 1)
    rw [Node.number, erase_mk, erase_mk]
    exact congrArg _ (mapNodes_eq_all halike)

/-- Numbering keeps the content. -/
theorem Node.content_number (n : Node) (last : NodeId) :
    (n.number last).1.content = n.content := by
  rw [content, content, erase_number]

/-- **A tree in which all callees are exchanged is its content**, identities and spans left
aside. -/
theorem Node.AllFit.erase_exchangeCallees (h : n.AllFit) {callees : Registry NodeId NodeId}
    (hcallees : ∀ m ∈ n.preorder, m.isPlainCall = true → ∃ fresh, callees.get? m.id = some fresh) :
    (n.exchangeCallees callees).erase = n.content := by
  induction n using induction with
  | h n ih =>
    have hbelow : ∀ c ∈ n.children, (c.exchangeCallees callees).erase = c.content := fun c hc =>
      ih c hc (h.child hc) fun m hm => hcallees m (mem_preorder_of_mem_child hc hm)
    have hparts : ∀ ps : List Part, (∀ c ∈ ps.flatMap nodes, c ∈ n.children) →
        (ps.map (mapNodes (Node.exchangeCallees callees))).map (mapNodes Node.erase) =
          ps.map (mapNodes content) := by
      intro ps hps
      rw [map_map]
      refine map_congr_left fun p hp => ?_
      rw [Function.comp_apply, mapNodes_mapNodes]
      exact mapNodes_congr fun c hc =>
        hbelow c (hps c (mem_flatMap.mpr ⟨p, hp, hc⟩))
    cases hplain : n.isPlainCall with
    | true =>
      obtain ⟨fresh, hget⟩ := hcallees n n.mem_preorder_self hplain
      obtain ⟨callee, t', arguments, ts, t'', heq⟩ := h.plainCall_eq hplain
      have hrest := hparts [.token t', .separated arguments ts, .token t''] fun c hc => by
        rw [heq]
        simp only [children_mk, flatMap_cons]
        exact mem_append_right _ hc
      rw [heq, exchangeCallees_call callees hget, content_call, erase_mk,
        map_cons, hrest]
      simp [leaf, mapNodes, erase_mk]
    | false =>
      rw [exchangeCallees_of_not (by simp [hplain]), content_of_not hplain]
      obtain ⟨k, id, span, ps⟩ := n
      rw [mapChildren, erase_mk]
      exact congrArg _ (hparts ps fun c hc => by simpa using hc)

/-! ### Equal trees -/

/-- Trees that are the same up to identities and spans have the same content. -/
theorem Node.same_of_erase {m : Node} (h : n.erase = m.erase) : n.same m = true := by
  induction n using induction generalizing m with
  | h n ih =>
    obtain ⟨k, i, s, ps⟩ := n
    obtain ⟨k', i', s', qs⟩ := m
    rw [children_mk] at ih
    rw [erase_mk, erase_mk, mk.injEq] at h
    obtain ⟨rfl, -, -, hparts⟩ := h
    have hall : Part.sameAll ps qs = true :=
      sameAll_of_mapNodes hparts fun n hn m hnm => ih n hn hnm
    simp [Node.same, hall]

end Erase

end ShaderSource
