import ShaderSource.Proofs.Reparsing

/-!
# The scopes that a tree opens

Scopes are numbered in the order in which they are opened, and each knows the scope it lies in. Both
can be read off the tree: the nodes that open scopes, in pre-order, are the scopes behind the
outermost one, and the scope that one of them lies in is that of the nearest such node around it.

## Main results

* `Occurrence.Nested.mirrors`: a run opens the scopes of its nodes, in pre-order.
* `Program.BoundAs.mirrors`: the scopes of a program are those that its tree opens.
* `Program.parse_scopes`: reading yields a program with such scopes, or an error of the source.
-/

namespace ShaderSource

open Lineage List Node

variable {n : Node} {above : List Node} {o : Occurrence} {b : Names} {openings : List Lineage}

/-! ### Scopes and nodes -/

/-- The scope that a node has opened: the outermost one for the program as a whole, and behind it
those of the given nodes in their order. -/
inductive ScopeOf (openings : List Lineage) : Option Lineage → ScopeId → Prop
  | outermost : ScopeOf openings none 0
  | inner {i l} (h : openings[i]? = some l) : ScopeOf openings (some l) (i + 1)

/-- The scopes are the outermost one and those that the nodes open, in their order, each in the
scope of the nearest node around that opens one. -/
structure ScopeTree.Mirrors (t : ScopeTree) (openings : List Lineage) : Prop where
  size : t.size = openings.length + 1
  scope : ∀ i l, openings[i]? = some l → ∃ s parent, t.get? (i + 1) = some s ∧
    s.name = l.node.scopeName ∧ s.span = l.node.span ∧ s.parent = some parent ∧
    ScopeOf openings l.enclosing? parent

theorem ScopeOf.append {o : Option Lineage} {i : ScopeId}
    (h : ScopeOf openings o i) (more : List Lineage) : ScopeOf (openings ++ more) o i := by
  cases h with
  | outermost => exact .outermost
  | inner h =>
    refine .inner ?_
    rw [getElem?_append_left (List.getElem?_eq_some_iff.mp h).1, h]

/-! ### Scopes keep their places -/

/-- The scope has the name, the range and the place of the other one. -/
structure Scope.Keeps (s s' : Scope) : Prop where
  name : s'.name = s.name
  parent : s'.parent = s.parent
  span : s'.span = s.span

namespace ScopeTree

variable {t : ScopeTree}

theorem Mirrors.keeps {t' : ScopeTree} (h : t.Mirrors openings)
    (hkeeps : t.Becomes Scope.Keeps t') : t'.Mirrors openings := by
  refine ⟨hkeeps.size.trans h.size, fun i l hl => ?_⟩
  obtain ⟨s, parent, hs, hname, hspan, hparent, hof⟩ := h.scope i l hl
  obtain ⟨s', hs', hsame⟩ := hkeeps.scope _ s hs
  exact ⟨s', parent, hs', hsame.name.trans hname, hsame.span.trans hspan,
    hsame.parent.trans hparent, hof⟩

/-- One more scope. -/
theorem Mirrors.push (h : t.Mirrors openings) {l : Lineage}
    {parent : ScopeId} (hof : ScopeOf openings l.enclosing? parent) :
    (t.push parent l.node.scopeName l.node.span).1.Mirrors (openings ++ [l]) := by
  constructor
  · simpa [ScopeTree.push, ScopeTree.size] using h.size
  · intro i m hm
    by_cases hi : i < openings.length
    · rw [getElem?_append_left hi] at hm
      obtain ⟨s, parent', hs, hname, hspan, hparent, hof'⟩ := h.scope i m hm
      refine ⟨s, parent', ?_, hname, hspan, hparent, hof'.append _⟩
      have hold : i + 1 ≠ t.size := h.size ▸ Nat.ne_of_lt (Nat.succ_lt_succ hi)
      rw [get?_push, if_neg hold, hs]
    · have hlt := (List.getElem?_eq_some_iff.mp hm).1
      rw [length_append, length_singleton] at hlt
      obtain rfl : i = openings.length :=
        Nat.le_antisymm (Nat.le_of_lt_succ hlt) (Nat.le_of_not_lt hi)
      obtain rfl : l = m := by simpa using hm
      refine ⟨Scope.fresh t.size l.node.scopeName (some parent) l.node.span, parent, ?_, rfl, rfl,
        rfl, hof.append _⟩
      rw [get?_push, if_pos h.size.symm]

end ScopeTree

/-- A step that neither opens nor leaves a scope keeps the scopes. -/
theorem Names.keeps_flat (h : o.isFlat = true) :
    b.scopes.Becomes Scope.Keeps (b.step o).scopes :=
  ScopeTree.becomes_flat (fun _ => ⟨rfl, rfl, rfl⟩) h
    (fun s c r _ => by cases c <;> exact ⟨rfl, rfl, rfl⟩) fun _ _ => ⟨rfl, rfl, rfl⟩

theorem Names.mirrors_flat {os : List Occurrence} (h : ∀ o ∈ os, o.isFlat = true)
    (hb : b.scopes.Mirrors openings) :
    (os.foldl Names.step b).scopes.Mirrors openings := by
  induction os generalizing b with
  | nil => exact hb
  | cons o os ih =>
    rw [forall_mem_cons] at h
    exact ih h.2 (hb.keeps (Names.keeps_flat h.1))

/-- A run below the given nodes opens the scopes of its nodes, in their order. -/
theorem Occurrence.Nested.mirrors {os : List Occurrence} {ls : List Lineage} {ids : List NodeId}
    (h : Occurrence.Nested above os ls ids) (hb : b.Valid)
    (hmirrors : b.scopes.Mirrors openings)
    (hof : ScopeOf openings (Lineage.nearest? above) b.current) :
    (os.foldl Names.step b).scopes.Mirrors (openings ++ ls) := by
  induction h generalizing b openings with
  | flat hflat =>
    rw [append_nil]
    exact Names.mirrors_flat hflat hmirrors
  | @append _ os _ ls _ _ _ h _ _ _ ih ih' =>
    rw [foldl_append, ← append_assoc]
    exact ih' (hb.foldl os) (ih hb hmirrors hof) (h.returns b hb ▸ hof.append ls)
  | @scope above n os _ hopens _ ih =>
    have hinside : ScopeOf (openings ++ [⟨n, above⟩]) (nearest? (n :: above))
        (b.step (.enter n.scopeName n.span)).current := by
      rw [nearest?_cons_of_opens hopens]
      change ScopeOf _ _ b.scopes.size
      rw [hmirrors.size]
      exact .inner (by simp)
    rw [foldl_cons, foldl_append, append_cons]
    exact ih (hb.step _) (hmirrors.push (l := ⟨n, above⟩) hof) hinside
  | within hopens _ ih => exact ih hb hmirrors (by rwa [nearest?_cons_of_not hopens])
  | mono _ _ ih => exact ih hb hmirrors hof

/-! ### Callees are exchanged in between -/

section Exchange

variable {n root : Node} (callees : Registry NodeId NodeId)

/-- A node once its callees have been exchanged, and with it what is above it. -/
def Lineage.exchangeCallees (l : Lineage) : Lineage :=
  ⟨l.node.exchangeCallees callees, l.above.map (Node.exchangeCallees callees)⟩

theorem Lineage.opens_exchangeCallees (l : Lineage) :
    (l.exchangeCallees callees).opens = l.opens := by
  obtain ⟨n, above⟩ := l
  simp only [opens, exchangeCallees, kind_exchangeCallees, head?_map,
    Option.map_map]
  congr 2
  exact funext fun m => m.kind_exchangeCallees callees

theorem Lineage.enclosing?_exchangeCallees (l : Lineage) :
    (l.exchangeCallees callees).enclosing? =
      l.enclosing?.map (Lineage.exchangeCallees callees) := by
  obtain ⟨n, above⟩ := l
  change nearest? (above.map _) = (nearest? above).map _
  induction above with
  | nil => rfl
  | cons m above ih =>
    have hopens : (mk (m.exchangeCallees callees)
        (above.map (Node.exchangeCallees callees))).opens = (mk m above).opens :=
      opens_exchangeCallees callees ⟨m, above⟩
    rw [map_cons]
    cases h : (mk m above).opens with
    | true =>
      rw [nearest?_cons_of_opens h, nearest?_cons_of_opens (hopens.trans h)]
      rfl
    | false =>
      rw [nearest?_cons_of_not h, nearest?_cons_of_not (hopens.trans h), ih]

theorem Node.AllFit.openingsBelow_exchangeCallees (h : n.AllFit) (above : List Node) :
    (n.exchangeCallees callees).openingsBelow (above.map (Node.exchangeCallees callees)) =
      (n.openingsBelow above).map (Lineage.exchangeCallees callees) := by
  induction n using induction generalizing above with
  | h n ih =>
    cases hholds : n.kind.holdsScopes with
    | false =>
      rw [h.openingsBelow_eq_nil hholds, (exchangeCallees_allFit h callees).openingsBelow_eq_nil
        (by rw [kind_exchangeCallees, hholds])]
      rfl
    | true =>
      have hkind : n.kind ≠ .functionCall := fun heq => by
        rw [heq] at hholds
        cases hholds
      have hopens := opens_exchangeCallees callees ⟨n, above⟩
      have hchildren : (n.exchangeCallees callees).children.flatMap
          (Node.openingsBelow ((n :: above).map (Node.exchangeCallees callees))) =
            (n.children.flatMap (Node.openingsBelow (n :: above))).map
              (Lineage.exchangeCallees callees) := by
        rw [exchangeCallees_of_kind callees hkind, children_mapChildren,
          flatMap_map, map_flatMap]
        exact flatMap_congr fun c hc => ih c hc (h.child hc) (n :: above)
      rw [openingsBelow_eq, openingsBelow_eq n, map_append, ← hchildren]
      congr 1
      rw [show (Lineage.mk (n.exchangeCallees callees)
        (above.map (Node.exchangeCallees callees))).opens = _ from hopens]
      split <;> rfl

/-- No calls are on the way through the given parts, its end apart. -/
def Kind.callFree : List Nat → Kind → Bool
  | [], _ => true
  | i :: path, k => k != .functionCall && (k.kindsIn i).all (callFree path)

theorem Node.AllFit.along_exchangeCallees (h : n.AllFit) {path : List Nat}
    (hpath : n.kind.callFree path = true) :
    (n.exchangeCallees callees).along path = (n.along path).map (Node.exchangeCallees callees) := by
  induction path generalizing n with
  | nil => rfl
  | cons i path ih =>
    rw [Kind.callFree, Bool.and_eq_true, bne_iff_ne, all_eq_true] at hpath
    rw [Node.along, Node.along, field_exchangeCallees callees hpath.1, flatMap_map, map_flatMap]
    exact flatMap_congr fun c hc => ih (h.child (mem_children_iff.mpr ⟨i, hc⟩))
      (hpath.2 _ (h.fits.kind_mem_field hc))

theorem Node.AllFit.prototypeName_exchangeCallees (h : n.AllFit)
    (hkind : n.kind = .functionPrototype) :
    (n.exchangeCallees callees).prototypeName = n.prototypeName := by
  have hnames : (n.along [0, 1]).map (Node.exchangeCallees callees) = n.along [0, 1] := by
    refine (map_congr_left fun name hname => ?_).trans (map_id _)
    have hname' := h.kind_mem_along hname
    rw [hkind] at hname'
    exact (h.below (mem_along hname)).fits.exchangeCallees_eq callees
      (.inl (mem_singleton.mp hname'))
  rw [Node.prototypeName, h.along_exchangeCallees callees (by rw [hkind]; rfl), hnames,
    Node.prototypeName]

theorem Node.AllFit.scopeName_exchangeCallees (h : n.AllFit) :
    (n.exchangeCallees callees).scopeName = n.scopeName := by
  unfold Node.scopeName
  rw [kind_exchangeCallees]
  split <;> try rfl
  · rename_i hkind
    rw [field_exchangeCallees callees (by simp [hkind]), map_map]
    refine congrArg (List.headD · "") (map_congr_left fun prototype hprototype => ?_)
    obtain ⟨hfit, hkind'⟩ := h.of_field (k := .functionPrototype) hprototype (by rw [hkind]; rfl)
    exact hfit.prototypeName_exchangeCallees callees hkind'
  · rename_i hkind
    exact h.prototypeName_exchangeCallees callees hkind

theorem Lineage.mem_preorder {l : Lineage} (h : l ∈ n.lineages above) : l.node ∈ n.preorder := by
  induction n using induction generalizing above with
  | h n ih =>
    rw [lineages_eq, mem_cons] at h
    rcases h with rfl | h
    · exact n.mem_preorder_self
    · obtain ⟨c, hc, hl⟩ := mem_flatMap.mp h
      exact mem_preorder_of_mem_child hc (ih c hc hl)

/-- The scopes of a tree are those of the tree with other callees. -/
theorem ScopeTree.Mirrors.exchangeCallees {t : ScopeTree} (hroot : root.AllFit)
    (h : t.Mirrors root.openings) : t.Mirrors (root.exchangeCallees callees).openings := by
  have hopenings : (root.exchangeCallees callees).openings =
      root.openings.map (Lineage.exchangeCallees callees) :=
    hroot.openingsBelow_exchangeCallees callees []
  rw [hopenings]
  refine ⟨h.size.trans (by rw [length_map]), fun i l hl => ?_⟩
  rw [getElem?_map] at hl
  obtain ⟨m, hm, rfl⟩ := Option.map_eq_some_iff.mp hl
  obtain ⟨s, parent, hs, hname, hspan, hparent, hof⟩ := h.scope i m hm
  have hfit : m.node.AllFit := hroot.below
    (Lineage.mem_preorder (mem_of_mem_filter (mem_of_getElem? hm)))
  refine ⟨s, parent, hs, hname.trans (hfit.scopeName_exchangeCallees callees).symm,
    hspan.trans (m.node.span_exchangeCallees callees).symm, hparent, ?_⟩
  rw [Lineage.enclosing?_exchangeCallees]
  generalize m.enclosing? = o at hof
  cases hof with
  | outermost => exact .outermost
  | inner hget => exact .inner (by rw [getElem?_map, hget]; rfl)

end Exchange

/-! ### The scopes of a program -/

/-- Only the outermost scope lies in no other one. -/
theorem ScopeTree.Mirrors.parent_eq_none_iff {t : ScopeTree}
    (h : t.Mirrors openings) (hvalid : t.Valid) {i : ScopeId} {s : Scope}
    (hs : t.get? i = some s) : s.parent = none ↔ i = 0 := by
  constructor
  · intro hnone
    by_contra hi
    obtain ⟨j, rfl⟩ := Nat.exists_eq_succ_of_ne_zero hi
    have hlt : j < openings.length :=
      Nat.lt_of_succ_lt_succ (Nat.lt_of_lt_of_eq (lt_size_of_get? hs) h.size)
    obtain ⟨s', parent, hs', -, -, hparent, -⟩ := h.scope j _ (getElem?_eq_getElem hlt)
    rw [hs'] at hs
    obtain rfl := Option.some.inj hs
    rw [hnone] at hparent
    cases hparent
  · rintro rfl
    cases hparent : s.parent with
    | none => rfl
    | some parent => exact absurd (hvalid.parents hs hparent) (Nat.not_lt_zero parent)

/-- The scopes of a program are those that its tree opens. -/
theorem Program.BoundAs.mirrors {p : Program} {tree : Node} {last : NodeId}
    (h : p.BoundAs tree last b) : p.scopes.Mirrors p.root.openings := by
  rw [h.root, h.scopes, h.names]
  refine ScopeTree.Mirrors.exchangeCallees _ h.fit ?_
  have hinitial : (Binding.initial tree.span last).names.scopes.Mirrors [] :=
    ⟨rfl, fun i l hl => by cases hl⟩
  exact (h.fit.nested_program h.ids.nodup h.kind).mirrors (Names.valid_initial tree.span last)
    hinitial .outermost

/-- **Reading yields a program whose scopes are those that its tree opens**, or an error of the
source. -/
theorem Program.parse_scopes {options : Options} (hstrict : options.strict = false)
    (text : String) :
    (∃ p, Program.parse text options = .ok p ∧ p.scopes.Mirrors p.root.openings ∧
      ∀ i s, p.scopes.get? i = some s →
        s.id = i ∧ (s.parent = none ↔ i = 0) ∧ (∀ parent, s.parent = some parent → parent < i) ∧
          (s.functions ≠ [] → i = 0)) ∨
      (∃ e, Program.parse text options = .error (.unexpected e)) ∨
      (∃ span, Program.parse text options = .error (.invalidSwitchBody span)) ∨
      ∃ span, Program.parse text options = .error (.nestingTooDeep span) := by
  have htree := readTree_eq options.start ⟨Lexemes.ofString text, options.located⟩ options.source
  rcases houtcome : options.start.outcome ⟨Lexemes.ofString text, options.located⟩ with
    e | ⟨_ | ⟨tree, _⟩, t⟩
  all_goals rw [houtcome] at htree
  · have hparse := Program.parse_of_readTree_error htree
    rcases Start.outcome_error houtcome with ⟨span, rfl⟩ | ⟨span, rfl⟩
    · exact .inr (.inr (.inl ⟨span, hparse⟩))
    · exact .inr (.inr (.inr ⟨span, hparse⟩))
  · exact .inr (.inl ⟨_, Program.parse_of_readTree_error htree⟩)
  · left
    obtain ⟨b, hbind, hparse⟩ := Program.parse_of_readTree hstrict htree
    have hbound := Program.boundAs_of_ofTree htree hbind
    refine ⟨_, hparse, hbound.mirrors, fun i s hs => ⟨hbound.valid.ids hs,
      hbound.mirrors.parent_eq_none_iff hbound.valid hs,
      fun parent hparent => hbound.valid.parents hs hparent, fun hfunctions => ?_⟩⟩
    by_contra hi
    exact hfunctions (hbound.valid.functions hs hi)

/-- A prototype, and a function with a loop in it, a second one without braces, and a switch with
braces of its own: the bodies of the function and of the first loop have no scopes of their own. -/
theorem Program.parse_scopes_nested :
    Options.default.strict = false ∧
      ∃ p, Program.parse ("void g(int a); void f() \x7b do { ; } while (b); " ++
          "for (;;) switch (1) \x7b case 0: { } \x7d \x7d") Options.default = .ok p ∧
        p.root.openings.map (fun l => l.node.kind) =
          [.functionPrototype, .functionDefinition, .doStatement, .forStatement, .switchStatement,
            .compoundStatement] ∧
        p.scopes.scopes.map (fun s => (s.name, s.parent)) =
          [("global", none), ("g", some 0), ("f", some 0), ("do", some 2), ("for", some 2),
            ("switch", some 4), ("compound statement", some 5)] ∧
        p.scopes.Mirrors p.root.openings := by
  have hstrict : Options.default.strict = false := rfl
  refine ⟨hstrict, Program.exists_of_parse (fun p hparse (h : _ ∧ _) =>
    ⟨hparse, h.1, h.2, ?_⟩) ?_⟩
  · rcases Program.parse_scopes hstrict _ with
      ⟨p', hparse', hmirrors, -⟩ | ⟨e, herror⟩ | ⟨span, herror⟩ | ⟨span, herror⟩
    · obtain rfl := Except.ok.inj (hparse.symm.trans hparse')
      exact hmirrors
    · cases hparse.symm.trans herror
    · cases hparse.symm.trans herror
    · cases hparse.symm.trans herror
  · decide +kernel

end ShaderSource
