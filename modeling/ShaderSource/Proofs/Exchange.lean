import ShaderSource.Proofs.Completeness

/-!
# New names and new callees

A tree can get new names first and new callees then, or the other way round. The callee of a call
carries a name before and after it is exchanged, but in different leaves, so the names have to be
given to other leaves if they come first. With that the order does not matter.

Spans and tokens do not matter either: a tree without spans or with other tokens gets the same
callees.

## Main results

* `Node.AllFit.relabel_exchangeCallees`: new names and new callees commute.
* `Node.AllFit.retoken_exchangeCallees`: so do new tokens and new callees.
* `Node.same_of_bare`: trees that are the same up to spans have the same content.
-/

namespace ShaderSource

open List Node ShaderSource.Part

/-! ### Trees with other tokens -/

theorem forall₂_of_map_eq {α β γ : Type} {f : α → γ} {g : β → γ} {l : List α} {l' : List β}
    (h : l.map f = l'.map g) : List.Forall₂ (fun a b => f a = g b) l l' := by
  rw [← forall₂_eq_eq_eq, forall₂_map_left_iff, forall₂_map_right_iff] at h
  exact h

section Retoken

variable (f : Token → Token)

theorem Part.retoken_mapNodes (g g' : Node → Node) {p : Part}
    (h : ∀ n ∈ p.nodes, (g n).retoken f = g' (n.retoken f)) :
    (p.mapNodes g).retoken f = (p.retoken f).mapNodes g' := by
  cases p with
  | text | token | optToken => simp [mapNodes]
  | child n => simpa [mapNodes] using h n (by simp [nodes])
  | optChild n | branch _ n =>
    cases n with
    | none => simp [mapNodes]
    | some n => simpa [mapNodes] using h n (by simp [nodes])
  | list ns | separated ns _ =>
    have hmap : ns.map (fun n => (g n).retoken f) = ns.map fun n => g' (n.retoken f) :=
      map_congr_left fun n hn => h n hn
    simpa [mapNodes, Function.comp_def] using hmap

theorem Node.retoken_mapChildren (g g' : Node → Node) {n : Node}
    (h : ∀ c ∈ n.children, (g c).retoken f = g' (c.retoken f)) :
    (n.mapChildren g).retoken f = (n.retoken f).mapChildren g' := by
  obtain ⟨k, i, s, ps⟩ := n
  rw [children_mk] at h
  rw [mapChildren, retoken_mk, retoken_mk, mapChildren, map_map,
    map_map]
  refine congrArg (Node.mk k i none) (map_congr_left fun p hp => ?_)
  exact retoken_mapNodes f g g' fun n hn => h n (mem_flatMap.mpr ⟨p, hp, hn⟩)

theorem Part.nodes_retoken (p : Part) : (p.retoken f).nodes = p.nodes.map (Node.retoken f) := by
  cases p with
  | optChild n | branch _ n => cases n <;> simp [nodes]
  | _ => simp [nodes]

theorem Node.field_retoken (n : Node) (i : Nat) :
    (n.retoken f).field i = (n.field i).map (Node.retoken f) := by
  obtain ⟨k, id, s, ps⟩ := n
  rw [retoken_mk, field_mk, field_mk, getElem?_map]
  cases ps[i]? with
  | none => rfl
  | some p => exact p.nodes_retoken f

theorem Node.along_retoken (n : Node) (path : List Nat) :
    (n.retoken f).along path = (n.along path).map (Node.retoken f) := by
  induction path generalizing n with
  | nil => rfl
  | cons i path ih =>
    rw [along, along, field_retoken, flatMap_map, map_flatMap]
    exact flatMap_congr fun c _ => ih c

theorem Node.isPlainCall_retoken (n : Node) : (n.retoken f).isPlainCall = n.isPlainCall := by
  have hkinds : ∀ ns : List Node, (ns.map (Node.retoken f)).map Node.kind = ns.map Node.kind := by
    intro ns
    rw [map_map]
    exact map_congr_left fun m _ => m.kind_retoken _
  unfold isPlainCall
  rw [field_retoken, along_retoken, along_retoken, hkinds, hkinds,
    kind_retoken, isEmpty_map]

theorem Node.isOpenBlock_retoken (n : Node) : (n.retoken f).isOpenBlock = n.isOpenBlock := by
  unfold isOpenBlock
  rw [field_retoken, kind_retoken, isEmpty_map]

end Retoken

theorem Node.sameAll_of_forall₂ {ns ms : List Node}
    (h : List.Forall₂ (fun n m => n.same m = true) ns ms) : Node.sameAll ns ms = true := by
  induction h with
  | nil => simp [Node.sameAll]
  | cons hn _ ih => simp [Node.sameAll, hn, ih]

theorem Part.retoken_eq_mapNodes : (Part.retoken fun t => t) = mapNodes bare := by
  funext p
  cases p with
  | optChild n | branch word n => cases n <;> simp [mapNodes]
  | _ => simp [mapNodes]

theorem Part.same_of_mapNodes {f : Node → Node} {p q : Part} (h : p.mapNodes f = q.mapNodes f)
    (hnodes : ∀ n ∈ p.nodes, ∀ m, f n = f m → n.same m = true) : p.same q = true := by
  have hlist : ∀ {ns ms : List Node}, ns ⊆ p.nodes → ns.map f = ms.map f →
      Node.sameAll ns ms = true := by
    intro ns ms hns heq
    refine sameAll_of_forall₂ ?_
    refine ((forall₂_and_left _ _).mpr ⟨fun _ hn => hns hn, forall₂_of_map_eq heq⟩).imp ?_
    exact fun n m hnm => hnodes n hnm.1 m hnm.2
  cases p <;> cases q <;>
    simp only [mapNodes, text.injEq, token.injEq, optToken.injEq,
      child.injEq, optChild.injEq, list.injEq, separated.injEq,
      branch.injEq, reduceCtorEq] at h
  case text.text | token.token | optToken.optToken =>
    subst h
    simp [same]
  case child.child n m =>
    rw [same]
    exact hnodes n (by simp [nodes]) m h
  case optChild.optChild n m =>
    cases n <;> cases m
    case none.none => simp [same]
    case some.some n m =>
      rw [same]
      exact hnodes n (by simp [nodes]) m (Option.some.inj h)
    all_goals cases h
  case list.list =>
    rw [same]
    exact hlist (Subset.refl _) h
  case separated.separated =>
    obtain ⟨hns, rfl⟩ := h
    rw [same, Bool.and_eq_true]
    exact ⟨hlist (Subset.refl _) hns, by simp⟩
  case branch.branch t n t' m =>
    obtain ⟨rfl, h⟩ := h
    cases n <;> cases m
    case none.none => simp [same]
    case some.some n m =>
      rw [same, hnodes n (by simp [nodes]) m (Option.some.inj h)]
      simp
    all_goals cases h

theorem Part.sameAll_of_mapNodes {f : Node → Node} {ps qs : List Part}
    (h : ps.map (mapNodes f) = qs.map (mapNodes f))
    (hnodes : ∀ n ∈ ps.flatMap nodes, ∀ m, f n = f m → n.same m = true) :
    Part.sameAll ps qs = true := by
  replace h := forall₂_of_map_eq h
  induction h with
  | nil => simp [sameAll]
  | cons hp _ ih =>
    rw [flatMap_cons, forall_mem_append] at hnodes
    simp [sameAll, same_of_mapNodes hp hnodes.1, ih hnodes.2]

/-- Trees that are the same up to spans have the same content. -/
theorem Node.same_of_bare {n m : Node} (h : n.bare = m.bare) : n.same m = true := by
  induction n using induction generalizing m with
  | h n ih =>
    obtain ⟨k, i, s, ps⟩ := n
    obtain ⟨k', i', s', qs⟩ := m
    rw [children_mk] at ih
    rw [bare, bare, retoken_mk, retoken_mk, mk.injEq,
      retoken_eq_mapNodes] at h
    obtain ⟨rfl, -, -, hparts⟩ := h
    have hall : Part.sameAll ps qs = true :=
      sameAll_of_mapNodes hparts fun n hn m hnm => ih n hn hnm
    simp [Node.same, hall]

/-! ### Exchanging callees -/

section Exchange

variable {n : Node} {callees : Registry NodeId NodeId} {names names' : Registry NodeId String}

/-- Nodes other than calls with new callees change only below. -/
theorem Node.exchangeCallees_of_not (h : n.isPlainCall = true → callees.get? n.id = none) :
    n.exchangeCallees callees = n.mapChildren (Node.exchangeCallees callees) := by
  rcases n.exchangeCallees_cases callees with heq | ⟨id, span, callee, parts, fresh, rfl, hget, -⟩
  · exact heq
  · have hnone := h rfl
    rw [id_mk, hget] at hnone
    cases hnone

/-- Other tokens, without spans, and exchanging callees commute. -/
theorem Node.AllFit.retoken_exchangeCallees (h : n.AllFit) (f : Token → Token)
    (callees : Registry NodeId NodeId) :
    (n.exchangeCallees callees).retoken f = (n.retoken f).exchangeCallees callees := by
  induction n using induction with
  | h n ih =>
    have hid : (n.retoken f).id = n.id := n.id_retoken _
    by_cases hcall : n.isPlainCall = true ∧ callees.get? n.id ≠ none
    · obtain ⟨hplain, hget⟩ := hcall
      obtain ⟨fresh, hget⟩ := Option.ne_none_iff_exists'.mp hget
      obtain ⟨callee, t', arguments, ts, t'', heq⟩ := h.plainCall_eq hplain
      have hchildren : ∀ m ∈ arguments, (m.exchangeCallees callees).retoken f =
          (m.retoken f).exchangeCallees callees := fun m hm => by
        have hm' : m ∈ n.children := by rw [heq]; simp [nodes, hm]
        exact ih m hm' (h.child hm')
      have hmap : arguments.map (fun m => (m.exchangeCallees callees).retoken f) =
          arguments.map fun m => (m.retoken f).exchangeCallees callees :=
        map_congr_left hchildren
      have hretoken : n.retoken f = .mk .functionCall n.id none
          [.child (PlainCallee.node ⟨callee.id, none, callee.name, none, f callee.token⟩),
            .token (f t'),
            .separated (arguments.map (Node.retoken f)) (ts.map f), .token (f t'')] := by
        rw [heq]
        simp [retoken_mk, PlainCallee.node]
      rw [hretoken, exchangeCallees_call callees hget, heq,
        exchangeCallees_call callees hget]
      simpa [retoken_mk, leaf, mapNodes, Function.comp_def] using hmap
    · have hnot : n.isPlainCall = true → callees.get? n.id = none := fun hplain =>
        Classical.not_not.mp fun hne => hcall ⟨hplain, hne⟩
      rw [exchangeCallees_of_not hnot, exchangeCallees_of_not (n := n.retoken f)
        (by rwa [isPlainCall_retoken, hid])]
      exact retoken_mapChildren f _ _ fun c hc => ih c hc (h.child hc)

/-! ### New names -/

theorem Node.relabel_leaf {kind : Kind} (hkind : kind.IsName) (names : Registry NodeId String)
    (id : NodeId) (span : Option Span) (t : Token) :
    (leaf kind id span t).relabel names =
      leaf kind id span ⟨(names.get? id).getD t.text, t.trivia⟩ := by
  cases hget : names.get? id with
  | none => exact relabel_leaf_of_none names hget span t
  | some name => exact relabel_leaf_of_some names hkind hget span t

theorem Node.Fits.field_relabel (h : n.Fits) (names : Registry NodeId String) (i : Nat) :
    (n.relabel names).field i = (n.field i).map (Node.relabel names) := by
  by_cases hkind : n.kind.IsName
  · have hnone : ∀ (m : Node), m.children = [] → m.field i = [] := fun m hm =>
      List.eq_nil_iff_forall_not_mem.mpr fun c hc => by
        have hmem := Node.mem_children_iff.mpr ⟨i, hc⟩
        rw [hm] at hmem
        cases hmem
    have hleaf : n.children = [] := by
      obtain ⟨t, hleaf⟩ := h.eq_leaf hkind
      rw [hleaf, Node.children_leaf]
    rw [hnone n hleaf, hnone _ (by rw [Node.children_relabel, hleaf]; rfl)]
    rfl
  · rw [Node.relabel_of_kind names hkind, Node.field_mapChildren]

theorem Node.AllFit.along_relabel (h : n.AllFit) (names : Registry NodeId String)
    (path : List Nat) : (n.relabel names).along path = (n.along path).map (Node.relabel names) := by
  induction path generalizing n with
  | nil => rfl
  | cons i path ih =>
    rw [along, along, h.fits.field_relabel, flatMap_map, map_flatMap]
    exact flatMap_congr fun c hc => ih (h.child (mem_children_iff.mpr ⟨i, hc⟩))

theorem Node.AllFit.isPlainCall_relabel (h : n.AllFit) (names : Registry NodeId String) :
    (n.relabel names).isPlainCall = n.isPlainCall := by
  have hkinds : ∀ ns : List Node, (ns.map (Node.relabel names)).map Node.kind =
      ns.map Node.kind := by
    intro ns
    rw [map_map]
    exact map_congr_left fun m _ => m.kind_relabel names
  unfold isPlainCall
  rw [h.fits.field_relabel, h.along_relabel, h.along_relabel, hkinds, hkinds, kind_relabel,
    isEmpty_map]

theorem Node.AllFit.isOpenBlock_relabel (h : n.AllFit) (names : Registry NodeId String) :
    (n.relabel names).isOpenBlock = n.isOpenBlock := by
  unfold isOpenBlock
  rw [h.fits.field_relabel, kind_relabel, isEmpty_map]

/-- The node is the name of a call that gets a new callee. -/
def Node.IsExchanged (callees : Registry NodeId NodeId) (n m : Node) : Prop :=
  ∃ call ∈ n.preorder, call.isPlainCall = true ∧ callees.get? call.id ≠ none ∧
    m ∈ call.along [0, 0]

/-- New names for a tree are moved to the leaves that carry the names before callees are exchanged:
the name of a call to that of its old callee. -/
structure Node.Moved (callees : Registry NodeId NodeId) (names names' : Registry NodeId String)
    (n : Node) : Prop where
  callee : ∀ call ∈ n.preorder, call.isPlainCall = true → ∀ fresh,
    callees.get? call.id = some fresh → ∀ m ∈ call.along [0, 0],
      names'.get? m.id = names.get? fresh
  other : ∀ m ∈ n.preorder, m.kind.IsName → n.IsExchanged callees m ∨
    names'.get? m.id = names.get? m.id

/-- What is moved in a node is moved in the nodes below, those of an old callee apart. -/
theorem Node.Moved.child (h : n.Moved callees names names') (hids : n.Distinct) {c : Node}
    (hc : c ∈ n.children)
    (hnew : n.isPlainCall = true → callees.get? n.id ≠ none → c ∉ n.field 0) :
    c.Moved callees names names' where
  callee := fun call hcall => h.callee call (mem_preorder_of_mem_child hc hcall)
  other := by
    intro m hm hkind
    rcases h.other m (mem_preorder_of_mem_child hc hm) hkind with
      ⟨call, hcall, hplain, hget, hname⟩ | hsame
    · left
      rcases mem_preorder_iff.mp hcall with rfl | ⟨d, hd, hcalld⟩
      · -- The name of the call itself is in its callee.
        obtain ⟨callee, hcallee, hname⟩ := mem_flatMap.mp hname
        have hd : callee ∈ call.children := mem_children_iff.mpr ⟨0, hcallee⟩
        obtain rfl := hids.child_unique hc hd hm (mem_along hname) rfl
        exact absurd hcallee (hnew hplain hget)
      · obtain rfl := hids.child_unique hc hd hm
          (mem_preorder_trans hcalld (mem_along hname)) rfl
        exact ⟨call, hcalld, hplain, hget, hname⟩
    · exact .inr hsame

/-- **New names and new callees commute**, if the names are moved. -/
theorem Node.AllFit.relabel_exchangeCallees (h : n.AllFit) (hids : n.Distinct)
    (hmoved : n.Moved callees names names') :
    (n.exchangeCallees callees).relabel names = (n.relabel names').exchangeCallees callees := by
  induction n using induction with
  | h n ih =>
    have hbelow : ∀ c ∈ n.children, c.Distinct := fun c hc =>
      hids.below (child_mem_preorder hc)
    by_cases hcall : n.isPlainCall = true ∧ callees.get? n.id ≠ none
    · obtain ⟨hplain, hne⟩ := hcall
      obtain ⟨fresh, hget⟩ := Option.ne_none_iff_exists'.mp hne
      obtain ⟨callee, t', arguments, ts, t'', heq⟩ := h.plainCall_eq hplain
      generalize n.id = id at hget heq
      generalize n.span = span at heq
      subst heq
      have hname : names'.get? callee.name = names.get? fresh :=
        hmoved.callee _ (mem_preorder_self _) hplain fresh hget
          (leaf .typeName callee.name callee.nameSpan callee.token) (mem_singleton_self _)
      have hmap : arguments.map (fun m => (m.exchangeCallees callees).relabel names) =
          arguments.map fun m => (m.relabel names').exchangeCallees callees := by
        refine map_congr_left fun m hm => ?_
        have hfield : m ∈ field 2 (.mk .functionCall id span
            [.child callee.node, .token t', .separated arguments ts, .token t'']) := hm
        have hm' := mem_children_iff.mpr ⟨2, hfield⟩
        refine ih m hm' (h.child hm') (hbelow m hm') (hmoved.child hids hm' fun _ _ hcallee => ?_)
        -- Arguments are no types.
        have hform := h.fits.kind_mem_field hfield
        rw [kind_callee hplain hcallee] at hform
        cases Kind.typeSpecifier_in_call hform
      have hcallee : callee.node.relabel names' = PlainCallee.node { callee with
          token := ⟨(names.get? fresh).getD callee.token.text, callee.token.trivia⟩ } := by
        have hleaf := relabel_leaf (.inr rfl : Kind.IsName .typeName) names' callee.name
          callee.nameSpan callee.token
        rw [hname] at hleaf
        simp only [leaf] at hleaf
        rw [PlainCallee.node, relabel_mk names' (by simp [Kind.IsName])]
        simp [mapNodes, PlainCallee.node, hleaf]
      rw [exchangeCallees_call callees hget, relabel_mk names (by simp [Kind.IsName]),
        relabel_mk names' (by simp [Kind.IsName])]
      simp only [map_cons, map_nil, mapNodes, hcallee,
        relabel_leaf (.inl rfl : Kind.IsName .identifier)]
      rw [exchangeCallees_call callees hget]
      simpa [mapNodes, Function.comp_def] using hmap
    · have hnot : n.isPlainCall = true → callees.get? n.id = none := fun hplain =>
        Classical.not_not.mp fun hne => hcall ⟨hplain, hne⟩
      by_cases hkind : n.kind.IsName
      · obtain ⟨t, hleaf⟩ := h.fits.eq_leaf hkind
        have hsame : names'.get? n.id = names.get? n.id := by
          rcases hmoved.other n n.mem_preorder_self hkind with
            ⟨call, hcall, hplain, -⟩ | hsame
          · -- Nothing is below a leaf, and it is no call.
            rw [hleaf] at hcall
            have hself : call = n := by
              rw [hleaf]
              simpa [leaf, Node.preorder, Part.preorders, Part.preorder] using hcall
            rw [hself, isPlainCall_iff] at hplain
            rcases hkind with hkind | hkind <;> simp [hkind] at hplain
          · exact hsame
        rw [h.fits.exchangeCallees_eq callees hkind,
          (h.fits.relabel names').exchangeCallees_eq callees (by rwa [kind_relabel])]
        rw [hleaf] at hsame ⊢
        rw [relabel_leaf hkind, relabel_leaf hkind]
        simp only [leaf, id_mk] at hsame
        rw [hsame]
      · have hrelabel := relabel_of_kind names' hkind
        have hplain : (n.mapChildren (Node.relabel names')).isPlainCall = n.isPlainCall := by
          rw [← hrelabel, h.isPlainCall_relabel]
        rw [exchangeCallees_of_not hnot, hrelabel,
          exchangeCallees_of_not (n := n.mapChildren _)
            (by rwa [hplain, id_mapChildren]),
          relabel_of_kind names (by rwa [kind_mapChildren]),
          mapChildren_mapChildren, mapChildren_mapChildren]
        refine mapChildren_congr fun c hc => ?_
        exact ih c hc (h.child hc) (hbelow c hc)
          (hmoved.child hids hc fun hplain hne => absurd (hnot hplain) hne)

end Exchange

/-! ### Moving names -/

/-- The new callee that comes into the place of a name. -/
def Node.calleeFor (callees : Registry NodeId NodeId) (root : Node) (i : NodeId) :
    Option NodeId :=
  root.preorder.findSome? fun call =>
    if call.isPlainCall && (call.along [0, 0]).any (·.id == i) then callees.get? call.id else none

/-- The names of the leaves before callees are exchanged. -/
def Node.moveNames (callees : Registry NodeId NodeId) (names : Registry NodeId String)
    (root : Node) : Registry NodeId String :=
  root.preorder.filterMap fun m =>
    (names.get? ((root.calleeFor callees m.id).getD m.id)).map fun name => (m.id, name)

theorem Registry.get?_filterMap_of_nodup {α β : Type} {l : List α} {f : α → NodeId}
    (hnodup : (l.map f).Nodup) (g : α → Option β) {a : α} (ha : a ∈ l) :
    Registry.get? (f a) (l.filterMap fun a => (g a).map fun b => (f a, b)) = g a := by
  induction l with
  | nil => cases ha
  | cons a' l ih =>
    rw [map_cons, nodup_cons] at hnodup
    rw [filterMap_cons]
    by_cases hsame : f a' = f a
    · obtain rfl : a = a' := by
        rcases mem_cons.mp ha with rfl | hmem
        · rfl
        · exact absurd (hsame ▸ mem_map_of_mem hmem) hnodup.1
      cases hg : g a with
      | none =>
        refine Registry.get?_eq_none_iff.mpr fun hmem => hnodup.1 ?_
        obtain ⟨e, he, hfst⟩ := mem_map.mp hmem
        obtain ⟨a', ha', hpair⟩ := mem_filterMap.mp he
        obtain ⟨_, -, rfl⟩ := Option.map_eq_some_iff.mp hpair
        exact hfst ▸ mem_map_of_mem ha'
      | some b => simp [Registry.get?]
    · have hmem : a ∈ l := by
        rcases mem_cons.mp ha with rfl | hmem
        · exact absurd rfl hsame
        · exact hmem
      cases hg : g a' with
      | none => simpa [hg] using ih hnodup.2 hmem
      | some b => simpa [hg, Registry.get?, hsame] using ih hnodup.2 hmem

section Moving

variable {root : Node} {callees : Registry NodeId NodeId}

theorem Node.mem_of_calleeFor {i fresh : NodeId} (h : root.calleeFor callees i = some fresh) :
    ∃ call ∈ root.preorder, call.isPlainCall = true ∧ callees.get? call.id = some fresh ∧
      ∃ m ∈ call.along [0, 0], m.id = i := by
  obtain ⟨call, hcall, hget⟩ := exists_of_findSome?_eq_some h
  split at hget
  · rename_i hnames
    simp only [Bool.and_eq_true, any_eq_true, beq_iff_eq] at hnames
    exact ⟨call, hcall, hnames.1, hget, hnames.2⟩
  · cases hget

/-- A name stands in one call only. -/
theorem Node.Distinct.call_unique (hids : root.Distinct) {call call' m m' : Node}
    (hcall : call ∈ root.preorder) (hcall' : call' ∈ root.preorder) (hm : m ∈ call.along [0, 0])
    (hm' : m' ∈ call'.along [0, 0]) (hid : m.id = m'.id) : call = call' := by
  obtain ⟨callee, hcallee, hm⟩ : ∃ callee ∈ call.field 0, m ∈ callee.field 0 := by
    simpa [along] using hm
  obtain ⟨callee', hcallee', hm'⟩ : ∃ callee ∈ call'.field 0, m' ∈ callee.field 0 := by
    simpa [along] using hm'
  have hchild := mem_children_iff.mpr ⟨0, hcallee⟩
  have hchild' := mem_children_iff.mpr ⟨0, hcallee'⟩
  have hsame := hids.parent_unique
    (mem_preorder_of_mem_children hcall hchild)
    (mem_preorder_of_mem_children hcall' hchild')
    (mem_children_iff.mpr ⟨0, hm⟩) (mem_children_iff.mpr ⟨0, hm'⟩) hid
  exact hids.parent_unique hcall hcall' hchild hchild' (by rw [hsame])

theorem Node.Distinct.calleeFor_eq (hids : root.Distinct) {call m : Node}
    (hcall : call ∈ root.preorder) (hplain : call.isPlainCall = true) (hm : m ∈ call.along [0, 0]) :
    root.calleeFor callees m.id = callees.get? call.id := by
  cases hfor : root.calleeFor callees m.id with
  | none =>
    have hnone := findSome?_eq_none_iff.mp hfor call hcall
    rw [if_pos (by simpa [hplain] using ⟨m, hm, rfl⟩)] at hnone
    exact hnone.symm
  | some fresh =>
    obtain ⟨call', hcall', -, hget, m', hm', hid⟩ := mem_of_calleeFor hfor
    rw [hids.call_unique hcall hcall' hm hm' hid.symm, hget]

theorem Node.Distinct.get?_moveNames (hids : root.Distinct) (names : Registry NodeId String)
    {m : Node} (hm : m ∈ root.preorder) :
    (root.moveNames callees names).get? m.id =
      names.get? ((root.calleeFor callees m.id).getD m.id) :=
  Registry.get?_filterMap_of_nodup hids
    (fun m => names.get? ((root.calleeFor callees m.id).getD m.id)) hm

/-- Any names can be moved. -/
theorem Node.Distinct.moved (hids : root.Distinct) (names : Registry NodeId String) :
    root.Moved callees names (root.moveNames callees names) where
  callee call hcall hplain fresh hget m hm := by
    rw [hids.get?_moveNames names (mem_preorder_trans hcall (mem_along hm)),
      hids.calleeFor_eq hcall hplain hm, hget]
    rfl
  other m hm _ := by
    cases hfor : root.calleeFor callees m.id with
    | none =>
      right
      rw [hids.get?_moveNames names hm, hfor]
      rfl
    | some fresh =>
      obtain ⟨call, hcall, hplain, hget, m', hm', hid⟩ := mem_of_calleeFor hfor
      obtain rfl := hids.eq_of_id (mem_preorder_trans hcall (mem_along hm')) hm hid
      exact .inl ⟨call, hcall, hplain, by simp [hget], hm'⟩

end Moving

end ShaderSource
