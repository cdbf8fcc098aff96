import ShaderSource.Proofs.Rewrite

/-!
# What becomes of a tree on a walk

Rewriting says what a visit does to a tree whose separators are in step. For any other tree the two
differ in separators: applying edits brings the separators of a node into step only if there is an
edit below the node. This module says what becomes of the nodes of a tree, whatever its separators
are like: a node that the visitor leaves alone is put together from its parts, and each of these
from what became of its nodes.

The statements take a walk apart that has come to its end. So they give, for a node, the states
between the walks over the nodes right below it, and a property that such walks keep is proved once
for a node and once for a list of nodes.

## Main results

* `Part.walkAll_become`: the parts of a node are put together from what became of their nodes.
* `Node.walk_distinct`: a walk gathers at most one edit for an address.
* `Node.Becomes.cases`: what can become of a node.
* `Node.visit_cases`: what can become of a tree that is visited.
-/

namespace ShaderSource

open Edits List Node ShaderSource.Part VisitM

variable {σ : Type}

/-! ### Putting parts together -/

/-- A part is put together from what became of its nodes. A node that must be there stays if it is
removed, and a list whose nodes all stay may keep separators that are not in step. -/
inductive Part.Assembled : Part → List (Option Node) → Part → Prop
  | text {s} : Assembled (.text s) [] (.text s)
  | token {t} : Assembled (.token t) [] (.token t)
  | optToken {t} : Assembled (.optToken t) [] (.optToken t)
  | child {n o} : Assembled (.child n) [o] (.child (o.getD n))
  | noChild : Assembled (.optChild none) [] (.optChild none)
  | optChild {n o} : Assembled (.optChild (some n)) [o] (.optChild o)
  | list {ns os} : os.length = ns.length →
      Assembled (.list ns) os (.list ((keptNodes 0 os).map Prod.snd))
  | separated {ns os ts ts'} : os.length = ns.length →
      ts' = ts ∧ (∀ o ∈ os, o ≠ none) ∨
        ts' = keptSeparators ns.length ts ((keptNodes 0 os).map Prod.fst) →
      Assembled (.separated ns ts) os (.separated ((keptNodes 0 os).map Prod.snd) ts')
  | noBranch {t} : Assembled (.branch t none) [] (.branch t none)
  | branch {t n o} : Assembled (.branch t (some n)) [o] (.branch t o)

/-- A part whose nodes stay is put together from them. -/
theorem Part.assembled_self (p : Part) : p.Assembled (p.nodes.map some) p := by
  have hkept : ∀ ns : List Node, (keptNodes 0 (ns.map some)).map Prod.snd = ns := by
    intro ns
    rw [keptNodes_nodes]
    simp [filterMap_map]
  cases p with
  | text => exact .text
  | token => exact .token
  | optToken => exact .optToken
  | child n => exact .child (o := some n)
  | optChild n =>
    cases n with
    | none => exact .noChild
    | some n => exact .optChild (o := some n)
  | list ns =>
    have h : (list ns).Assembled (ns.map some) _ := .list (by simp)
    rwa [hkept] at h
  | separated ns ts =>
    have h : (separated ns ts).Assembled (ns.map some) _ :=
      .separated (by simp) (.inl ⟨rfl, by simp⟩)
    rwa [hkept] at h
  | branch t n =>
    cases n with
    | none => exact .noBranch
    | some n => exact .branch (o := some n)

/-- The nodes of a part that is put together are what is left of its nodes, and a node that must be
there. -/
theorem Part.Assembled.nodes {p q : Part} {os : List (Option Node)} (h : p.Assembled os q) :
    q.nodes = os.filterMap (fun o => o) ∨ ∃ n, p = .child n ∧ os = [none] ∧ q = .child n := by
  cases h with
  | text | token | optToken | noChild | noBranch => exact .inl rfl
  | @child n o =>
    cases o with
    | none => exact .inr ⟨n, rfl, rfl, rfl⟩
    | some m => exact .inl rfl
  | @optChild n o | @branch t n o => cases o <;> exact .inl rfl
  | list | separated => exact .inl (keptNodes_nodes 0 _)

/-- A part in step whose nodes all become something is put together from that. -/
theorem Part.Assembled.eq_mapNodes {p q : Part} {g : Node → Node}
    (h : p.Assembled (p.nodes.map fun n => some (g n)) q) (hstep : p.inStep = true) :
    q = p.mapNodes g := by
  have hkept : ∀ ns : List Node,
      (keptNodes 0 (ns.map fun n => some (g n))).map Prod.snd = ns.map g := by
    intro ns
    rw [keptNodes_nodes]
    simp [filterMap_map]
  generalize hos : (p.nodes.map fun n => some (g n)) = os at h
  cases h with
  | text | token | optToken | noChild | noBranch => rfl
  | child | optChild | branch =>
    cases hos
    rfl
  | list =>
    rw [← hos, Part.nodes, hkept, Part.mapNodes]
  | @separated ns os ts ts' _ hts =>
    have hindices := keptNodes_indices 0 (ns.map g)
    rw [map_map, length_map] at hindices
    simp only [inStep, Bool.and_eq_true, decide_eq_true_eq] at hstep
    have hsame : ts' = ts := by
      rcases hts with ⟨hts, -⟩ | hts
      · exact hts
      · rw [hts, ← hos, Part.nodes]
        exact (congrArg _ hindices).trans (keptSeparators_all hstep.1)
    rw [hsame, ← hos, Part.nodes, hkept, Part.mapNodes]

/-! ### Applying edits -/

section Patch

variable {es : Edits}

theorem Node.length_outcomes (slot index : Nat) (ns : List Node) :
    (outcomes es slot index ns).length = ns.length := by
  induction ns generalizing index with
  | nil => rfl
  | cons n ns ih => rw [outcomes, length_cons, length_cons, ih]

/-- A part with edits applied is put together from what they make of its nodes. -/
theorem Part.assembled_patch (p : Part) (slot : Nat) :
    p.Assembled (outcomes es slot 0 p.nodes) (p.patch es slot) := by
  cases p with
  | text | token | optToken =>
    rw [patch]
    constructor
  | child n =>
    rw [patch]
    exact .child
  | optChild o =>
    cases o with
    | none =>
      rw [patch]
      exact .noChild
    | some n =>
      rw [patch]
      exact .optChild
  | branch t o =>
    cases o with
    | none =>
      rw [patch]
      exact .noBranch
    | some n =>
      rw [patch]
      exact .branch
  | list ns =>
    rw [patch, patchedAll_eq_keptNodes]
    exact .list (length_outcomes slot 0 ns)
  | separated ns ts =>
    rw [patch, patchedAll_eq_keptNodes]
    exact .separated (length_outcomes slot 0 ns) (.inr rfl)

end Patch

/-! ### Walks over nodes -/

theorem Node.children_eq (n : Node) : n.children = n.parts.flatMap nodes := by
  cases n
  rw [children_mk, Node.parts]

/-- How a part holds its nodes. -/
def Part.slotKind : Part → SlotKind
  | .list _ => .list
  | .separated _ _ => .list
  | .optChild _ => .optional
  | .branch _ _ => .optional
  | _ => .required

section Walks

variable (v : Visitor σ) (ancestors : List Node)

/-- A walk over the node comes from the state `s` to `s'`, and the node becomes `o`. It stands in a
slot of the given kind, or is a root. -/
def Node.Becomes (kind : Option SlotKind) (s : σ) (n : Node) (o : Option Node) (s' : σ) : Prop :=
  ∃ key es, key.map SlotKey.kind = kind ∧ (n.walk v ancestors key).run.run s = (.ok es, s') ∧
    o = n.patched es

/-- A walk over the node gathers at most one edit for an address. -/
def Node.EditsOnce (n : Node) : Prop :=
  ∀ ancestors key s es s', (n.walk v ancestors key).run.run s = (.ok es, s') → es.Distinct

/-- The nodes become `os`, one after the other, in slots of the given kinds. -/
inductive Node.AllBecome (kinds : SlotKind → Prop) : σ → List Node → List (Option Node) → σ → Prop
  | nil {s} : AllBecome kinds s [] [] s
  | cons {s n o s₁ ns os s₂ kind} : kinds kind → n.Becomes v ancestors (some kind) s o s₁ →
      AllBecome kinds s₁ ns os s₂ → AllBecome kinds s (n :: ns) (o :: os) s₂

/-- The parts become `qs`, one after the other. -/
inductive Part.AllBecome : σ → List Part → List Part → σ → Prop
  | nil {s} : AllBecome s [] [] s
  | cons {s p q s₁ ps qs s₂ os} : Node.AllBecome v ancestors (· = p.slotKind) s p.nodes os s₁ →
      p.Assembled os q → AllBecome s₁ ps qs s₂ → AllBecome s (p :: ps) (q :: qs) s₂

end Walks

section Run

variable {α β : Type} {m : VisitM σ α} {f : α → VisitM σ β} {s s' : σ} {b : β}

/-- A computation that comes to its end has its parts do so. -/
theorem VisitM.bind_ok (h : (m >>= f).run.run s = (.ok b, s')) :
    ∃ a s₁, m.run.run s = (.ok a, s₁) ∧ (f a).run.run s₁ = (.ok b, s') := by
  rw [run_bind] at h
  rcases hm : m.run.run s with ⟨e | a, s₁⟩
  · rw [hm] at h
    cases h
  · rw [hm] at h
    exact ⟨a, s₁, rfl, h⟩

theorem VisitM.pure_ok {a b : α} (h : (Pure.pure a : VisitM σ α).run.run s = (.ok b, s')) :
    a = b ∧ s = s' := by
  cases h
  exact ⟨rfl, rfl⟩

end Run

section Walk

variable {v : Visitor σ} {ancestors ns : List Node} {s s' : σ} {es : Edits} {ps qs : List Part}
  {os : List (Option Node)} {n : Node} {slot : Nat} {K : SlotKind → Prop}

/-- What a walk over a list of nodes gathers, and what becomes of the nodes. -/
theorem Node.walkAll_become {index : Nat}
    (h : (Node.walkAll v ancestors slot index ns).run.run s = (.ok es, s')) :
    es.Start (fun step => step.slot = slot ∧ index ≤ step.index) ∧
      ((∀ n ∈ ns, n.EditsOnce v) → es.Distinct) ∧
      Node.AllBecome v ancestors (· = .list) s ns (outcomes es slot index ns) s' := by
  induction ns generalizing index s es with
  | nil =>
    rw [Node.walkAll] at h
    obtain ⟨rfl, rfl⟩ := pure_ok h
    exact ⟨start_nil _, fun _ => .nil, .nil⟩
  | cons n ns ih =>
    rw [Node.walkAll] at h
    obtain ⟨first, s₁, hfirst, h⟩ := bind_ok h
    obtain ⟨rest, s₂, hrest, h⟩ := bind_ok h
    obtain ⟨rfl, rfl⟩ := pure_ok h
    obtain ⟨hstart, hdistinct, hos⟩ := ih hrest
    obtain ⟨hall, houtcomes⟩ := outcomes_cons first hstart n ns
    rw [houtcomes]
    refine ⟨hall, fun hns => ?_, .cons rfl ⟨_, first, rfl, hfirst, rfl⟩ hos⟩
    rw [forall_mem_cons] at hns
    refine ((hns.1 _ _ _ _ _ hfirst).under _).append (hdistinct hns.2) (start_under first _) hstart
      ?_
    rintro step rfl ⟨-, hindex⟩
    exact absurd hindex (Nat.not_succ_le_self index)

/-- How a walk goes over a part: there are no nodes in it, or there is one, or it is a list. -/
theorem Part.walk_shapes (v : Visitor σ) (ancestors : List Node) (p : Part) (slot : Nat) :
    (p.nodes = [] ∧ p.walk v ancestors slot = pure []) ∨ p.slot?.isSome = true ∧
      ((∃ n key, p.nodes = [n] ∧ key.kind = p.slotKind ∧ p.walk v ancestors slot = do
          return (← n.walk v ancestors (some key)).under ⟨slot, 0⟩) ∨
        p.slotKind = .list ∧
          p.walk v ancestors slot = Node.walkAll v ancestors slot 0 p.nodes) := by
  cases p with
  | text | token | optToken => exact .inl ⟨rfl, by rw [walk]⟩
  | child n => exact .inr ⟨rfl, .inl ⟨n, _, rfl, rfl, by rw [walk]⟩⟩
  | optChild n | branch _ n =>
    cases n with
    | none => exact .inl ⟨rfl, by rw [walk]⟩
    | some n => exact .inr ⟨rfl, .inl ⟨n, _, rfl, rfl, by rw [walk]⟩⟩
  | list | separated => exact .inr ⟨rfl, .inr ⟨rfl, by rw [walk, nodes]⟩⟩

/-- What a walk over a part gathers, and what becomes of its nodes. -/
theorem Part.walk_become {p : Part}
    (h : (p.walk v ancestors slot).run.run s = (.ok es, s')) :
    es.Start (fun step => p.slot?.isSome = true ∧ step.slot = slot) ∧
      ((∀ n ∈ p.nodes, n.EditsOnce v) → es.Distinct) ∧
      Node.AllBecome v ancestors (· = p.slotKind) s p.nodes (outcomes es slot 0 p.nodes) s' := by
  obtain ⟨hnodes, hwalk⟩ | ⟨hslot, ⟨n, key, hnodes, hkey, hwalk⟩ | ⟨hkind, hwalk⟩⟩ :=
    walk_shapes v ancestors p slot
  · rw [hwalk] at h
    obtain ⟨rfl, rfl⟩ := pure_ok h
    rw [hnodes]
    exact ⟨start_nil _, fun _ => .nil, .nil⟩
  · rw [hwalk] at h
    obtain ⟨below, s₁, hbelow, h⟩ := bind_ok h
    obtain ⟨rfl, rfl⟩ := pure_ok h
    rw [hnodes, outcomes, below_under]
    exact ⟨(start_under below _).mono fun step hstep => ⟨hslot, hstep ▸ rfl⟩,
      fun hn => (hn n mem_cons_self _ _ _ _ _ hbelow).under _,
      .cons hkey ⟨some key, below, rfl, hbelow, rfl⟩ .nil⟩
  · rw [hwalk] at h
    obtain ⟨hstart, hrest⟩ := Node.walkAll_become h
    rw [hkind]
    exact ⟨hstart.mono fun step hstep => ⟨hslot, hstep.1⟩, hrest⟩

/-- The parts of a node are put together from what became of their nodes. If there are no edits,
they are also put together as they were. -/
theorem Part.walkAll_become (h : (Part.walkAll v ancestors slot ps).run.run s = (.ok es, s')) :
    es.Start (fun step => slot ≤ step.slot) ∧
      ((∀ n ∈ ps.flatMap Part.nodes, n.EditsOnce v) → es.Distinct) ∧
      Part.AllBecome v ancestors s ps (patchAll es slot ps) s' ∧
      (es = [] → Part.AllBecome v ancestors s ps ps s') := by
  induction ps generalizing slot s es with
  | nil =>
    rw [walkAll] at h
    obtain ⟨rfl, rfl⟩ := pure_ok h
    rw [patchAll]
    exact ⟨start_nil _, fun _ => .nil, .nil, fun _ => .nil⟩
  | cons p ps ih =>
    rw [walkAll] at h
    obtain ⟨first, s₁, hfirst, h⟩ := bind_ok h
    obtain ⟨rest, s₂, hrest, h⟩ := bind_ok h
    obtain ⟨rfl, rfl⟩ := pure_ok h
    obtain ⟨hfirstStart, hfirstDistinct, hos⟩ := walk_become hfirst
    obtain ⟨hrestStart, hrestDistinct, hqs, hqsSame⟩ := ih hrest
    obtain ⟨hall, hpatched⟩ := patchAll_cons hfirstStart hrestStart ps
    refine ⟨hall, fun hps => ?_, ?_, fun hnil => ?_⟩
    · rw [flatMap_cons, forall_mem_append] at hps
      refine (hfirstDistinct hps.1).append (hrestDistinct hps.2) hfirstStart hrestStart ?_
      rintro step ⟨hslot, rfl⟩ hle
      rw [if_pos hslot] at hle
      exact absurd hle (Nat.not_succ_le_self _)
    · rw [hpatched]
      exact .cons hos (p.assembled_patch slot) hqs
    · obtain ⟨rfl, hnil⟩ := append_eq_nil_iff.mp hnil
      rw [outcomes_nil] at hos
      exact .cons hos p.assembled_self (hqsSame hnil)

/-- What a walk over a node comes to: the visitor changes the node before the nodes below it are
walked over; or they are, unless they are skipped, and then the visitor changes the node or it is
put together from its parts. -/
theorem Node.walk_become {key : Option SlotKey}
    (h : (n.walk v ancestors key).run.run s = (.ok es, s')) :
    (∃ d e, (v.enter ⟨n, ancestors, key⟩).run.run s = (.ok d, s') ∧ d.edit = some e ∧
      es = [([], e)] ∧ n.patched es = e.result) ∨
    ∃ d s₁ s₂ qs left, (v.enter ⟨n, ancestors, key⟩).run.run s = (.ok d, s₁) ∧ d.edit = none ∧
      (d.skip = true ∧ s₂ = s₁ ∧ qs = n.parts ∨
        d.skip = false ∧ Part.AllBecome v (n :: ancestors) s₁ n.parts qs s₂) ∧
      (v.exit ⟨n, ancestors, key⟩).run.run s₂ = (.ok left, s') ∧
      es.here? = left.edit ∧ ((∀ c ∈ n.children, c.EditsOnce v) → es.Distinct) ∧
      n.patched es = (left.edit.map Edit.result).getD (some (.mk n.kind n.id n.span qs)) := by
  obtain ⟨kind, id, span, parts⟩ := n
  rw [Node.walk] at h
  obtain ⟨d, s₁, henter, h⟩ := bind_ok h
  cases hedit : d.edit with
  | some e =>
    left
    simp only [hedit, Option.isSome_some, if_true] at h
    obtain ⟨rfl, rfl⟩ := pure_ok h
    refine ⟨d, e, henter, hedit, by rw [Decision.edits, hedit], ?_⟩
    cases e <;> simp [Decision.edits, hedit, patched, Edits.here?, Edit.result]
  | none =>
    right
    simp only [hedit, Option.isSome_none, Bool.false_eq_true, if_false] at h
    -- The edits below the node, and what they make of its parts.
    obtain ⟨inner, qs, s₂, left, hexit, rfl, hqs, hstart, hdistinct, hpatched⟩ : ∃ inner qs s₂ left,
        (v.exit ⟨.mk kind id span parts, ancestors, key⟩).run.run s₂ = (.ok left, s') ∧
        es = inner ++ left.edits ∧
        (d.skip = true ∧ s₂ = s₁ ∧ qs = parts ∨ d.skip = false ∧
          Part.AllBecome v (.mk kind id span parts :: ancestors) s₁ parts qs s₂) ∧
        inner.Start (fun step => 0 ≤ step.slot) ∧
        ((∀ n ∈ parts.flatMap Part.nodes, n.EditsOnce v) → inner.Distinct) ∧
        patched inner (.mk kind id span parts) = some (.mk kind id span qs) := by
      cases hskip : d.skip with
      | true =>
        rw [hskip, if_pos rfl, pure_bind] at h
        obtain ⟨left, s₃, hexit, h⟩ := bind_ok h
        obtain ⟨rfl, rfl⟩ := pure_ok h
        exact ⟨[], parts, s₁, left, hexit, rfl, .inl ⟨rfl, rfl, rfl⟩, start_nil _, fun _ => .nil,
          patched_nil _⟩
      | false =>
        rw [hskip, if_neg Bool.false_ne_true] at h
        obtain ⟨inner, s₂, hinner, h⟩ := bind_ok h
        obtain ⟨left, s₃, hexit, h⟩ := bind_ok h
        obtain ⟨rfl, rfl⟩ := pure_ok h
        obtain ⟨hstart, hdistinct, hbecome, hsame⟩ := Part.walkAll_become hinner
        cases inner with
        | nil =>
          exact ⟨[], parts, s₂, left, hexit, rfl, .inr ⟨rfl, hsame rfl⟩, hstart, hdistinct,
            patched_nil _⟩
        | cons e es =>
          refine ⟨e :: es, _, s₂, left, hexit, rfl, .inr ⟨rfl, hbecome⟩, hstart, hdistinct, ?_⟩
          rw [patched, hstart.here?_eq_none]
          rfl
    refine ⟨d, s₁, s₂, qs, left, henter, hedit, hqs, hexit, ?_⟩
    rw [children_mk]
    cases hleft : left.edit with
    | none =>
      rw [Decision.edits, hleft, append_nil]
      exact ⟨hstart.here?_eq_none, hdistinct, hpatched⟩
    | some e =>
      have hlast : Edits.here? (inner ++ left.edits) = some e := by
        rw [here?_append hstart.here?_eq_none, Decision.edits, hleft]
        rfl
      refine ⟨hlast, fun hparts => ?_, ?_⟩
      · rw [Decision.edits, hleft]
        refine pairwise_append.mpr
          ⟨hdistinct hparts, pairwise_singleton _ _, fun x hx y hy heq => ?_⟩
        obtain rfl := mem_singleton.mp hy
        obtain ⟨step, rest, hcons, -⟩ := hstart x hx
        cases hcons.symm.trans heq
      · rw [patched, hlast]
        cases e <;> rfl

/-- A walk gathers at most one edit for an address: nothing is gathered from below a node that is
changed before the nodes below it are walked over. -/
theorem Node.walk_distinct (v : Visitor σ) (n : Node) : n.EditsOnce v := by
  induction n using Node.induction with
  | h n ih =>
    intro ancestors key s es s' h
    rcases Node.walk_become h with
      ⟨_, _, -, -, rfl, -⟩ | ⟨_, _, _, _, _, -, -, -, -, -, hdistinct, -⟩
    · exact pairwise_singleton _ _
    · exact hdistinct ih

/-- What can become of a node: the visitor changes it before the nodes below it are walked over; or
they are, unless they are skipped, and then the visitor changes the node or it is put together from
its parts. -/
theorem Node.Becomes.cases {kind : Option SlotKind} {o : Option Node}
    (h : n.Becomes v ancestors kind s o s') :
    ∃ key d s₁, key.map SlotKey.kind = kind ∧
      (v.enter ⟨n, ancestors, key⟩).run.run s = (.ok d, s₁) ∧
      ((∃ e, d.edit = some e ∧ o = e.result ∧ s' = s₁) ∨
        ∃ s₂ qs left, d.edit = none ∧
          (d.skip = true ∧ s₂ = s₁ ∧ qs = n.parts ∨
            d.skip = false ∧ Part.AllBecome v (n :: ancestors) s₁ n.parts qs s₂) ∧
          (v.exit ⟨n, ancestors, key⟩).run.run s₂ = (.ok left, s') ∧
          o = (left.edit.map Edit.result).getD (some (.mk n.kind n.id n.span qs))) := by
  obtain ⟨key, es, hkey, hrun, rfl⟩ := h
  rcases Node.walk_become hrun with
    ⟨d, e, henter, hedit, -, hpatched⟩ |
    ⟨d, s₁, s₂, qs, left, henter, hedit, hqs, hexit, -, -, hpatched⟩
  · exact ⟨key, d, s', hkey, henter, .inl ⟨e, hedit, hpatched, rfl⟩⟩
  · exact ⟨key, d, s₁, hkey, henter, .inr ⟨s₂, qs, left, hedit, hqs, hexit, hpatched⟩⟩

/-! ### Walks over children -/

theorem Node.AllBecome.mono {K' : SlotKind → Prop}
    (h : Node.AllBecome v ancestors K s ns os s') (hK : ∀ kind, K kind → K' kind) :
    Node.AllBecome v ancestors K' s ns os s' := by
  induction h with
  | nil => exact .nil
  | cons hkind hn _ ih => exact .cons (hK _ hkind) hn ih

theorem Node.AllBecome.length_eq (h : Node.AllBecome v ancestors K s ns os s') :
    os.length = ns.length := by
  induction h with
  | nil => rfl
  | cons _ _ _ ih => rw [length_cons, length_cons, ih]

theorem Node.AllBecome.append {ns' : List Node} {os' : List (Option Node)} {s₁ : σ}
    (h : Node.AllBecome v ancestors K s ns os s₁)
    (h' : Node.AllBecome v ancestors K s₁ ns' os' s') :
    Node.AllBecome v ancestors K s (ns ++ ns') (os ++ os') s' := by
  induction h with
  | nil => exact h'
  | cons hkind hn _ ih => exact .cons hkind hn (ih h')

/-- The nodes in the parts become what they become one after the other, and if none is removed, the
parts hold just that, in the same places. -/
theorem Part.AllBecome.nodes (h : Part.AllBecome v ancestors s ps qs s') :
    ∃ os, Node.AllBecome v ancestors (fun _ => True) s (ps.flatMap nodes) os s' ∧
      ((∀ o ∈ os, o ≠ none) → qs.flatMap nodes = os.filterMap fun o => o) ∧
      ∀ g : Node → Node, os = ((ps.flatMap nodes).map fun n => some (g n)) →
        (∀ p ∈ ps, p.inStep = true) → qs = ps.map (mapNodes g) := by
  induction h with
  | nil => exact ⟨[], .nil, fun _ => rfl, fun _ _ _ => rfl⟩
  | cons hnodes hpart _ ih =>
    obtain ⟨os', hos', hqs, hmap⟩ := ih
    refine ⟨_, (hnodes.mono fun _ _ => trivial).append hos', fun hkept => ?_, fun g hos hstep => ?_⟩
    · rw [forall_mem_append] at hkept
      rw [flatMap_cons, filterMap_append, hqs hkept.2]
      rcases hpart.nodes with heq | ⟨n, -, rfl, -⟩
      · rw [heq]
      · exact absurd rfl (hkept.1 none mem_cons_self)
    · rw [flatMap_cons, map_append] at hos
      obtain ⟨rfl, hrest⟩ := append_inj hos (by rw [hnodes.length_eq, length_map])
      rw [forall_mem_cons] at hstep
      rw [map_cons, hpart.eq_mapNodes hstep.1, hmap g hrest hstep.2]

/-- A node that must be there becomes something, or stays. -/
theorem Part.AllBecome.child {c : Node}
    (h : Part.AllBecome v ancestors s (.child c :: ps) qs s') :
    ∃ o s₁ qs', c.Becomes v ancestors (some .required) s o s₁ ∧
      Part.AllBecome v ancestors s₁ ps qs' s' ∧ qs = .child (o.getD c) :: qs' := by
  cases h with
  | @cons _ _ _ s₁ _ qs' _ _ hnodes hpart hrest =>
    cases hpart with
    | @child _ o =>
      cases hnodes with
      | cons hkind hc hnil =>
        cases hnil
        cases hkind
        exact ⟨o, s₁, qs', hc, hrest, rfl⟩

/-- What the parts hold in the end corresponds to some of the nodes they held, in order. -/
theorem Part.AllBecome.correspond {R : Node → Node → Prop}
    (h : Part.AllBecome v ancestors s ps qs s') (hsame : ∀ n ∈ ps.flatMap Part.nodes, R n n)
    (hR : ∀ n ∈ ps.flatMap Part.nodes, ∀ kind s n' s',
      n.Becomes v ancestors kind s (some n') s' → R n' n) :
    ∃ ns, ns.Sublist (ps.flatMap Part.nodes) ∧ List.Forall₂ R (qs.flatMap Part.nodes) ns := by
  have hlist : ∀ {K s s'} {ns : List Node} {os : List (Option Node)},
      Node.AllBecome v ancestors K s ns os s' → (∀ n ∈ ns, ∀ kind s n' s',
        n.Becomes v ancestors kind s (some n') s' → R n' n) →
      ∃ ms, ms.Sublist ns ∧ List.Forall₂ R (os.filterMap fun o => o) ms := by
    intro K s s' ns os hos hns
    induction hos with
    | nil => exact ⟨[], List.Sublist.slnil, .nil⟩
    | @cons _ n o _ _ _ _ _ _ hn _ ih =>
      rw [forall_mem_cons] at hns
      obtain ⟨ms, hms, hR⟩ := ih hns.2
      cases o with
      | none => exact ⟨ms, hms.cons n, hR⟩
      | some n' => exact ⟨n :: ms, hms.cons_cons n, .cons (hns.1 _ _ _ _ hn) hR⟩
  induction h with
  | nil => exact ⟨[], List.Sublist.slnil, .nil⟩
  | cons hnodes hpart _ ih =>
    rw [flatMap_cons, forall_mem_append] at hsame hR
    obtain ⟨rest, hrest, hforall⟩ := ih hsame.2 hR.2
    rw [flatMap_cons, flatMap_cons]
    rcases hpart.nodes with heq | ⟨n, rfl, -, rfl⟩
    · obtain ⟨ms, hms, hR'⟩ := hlist hnodes hR.1
      exact ⟨ms ++ rest, hms.append hrest, rel_append (heq ▸ hR') hforall⟩
    · exact ⟨[n] ++ rest, (Sublist.refl _).append hrest,
        rel_append (.cons (hsame.1 n mem_cons_self) .nil) hforall⟩

/-! ### Visits -/

/-- A visit ends with an error, or the root becomes the tree that is there then. -/
theorem Node.visit_cases (hv : v.KeepsRoot) (root : Node) (s : σ) :
    (∃ e, (root.visit v s).result = .error e) ∨
      ∃ tree, root.Becomes v [] none s (some tree) (root.visit v s).state ∧
        (root.visit v s).result = .ok tree := by
  rcases hrun : (root.walk v [] none).run.run s with ⟨e | es, s'⟩
  · exact .inl ⟨e, by rw [visit, hrun]⟩
  · right
    have hhere : es.here? = none := by
      rcases Node.walk_become hrun with
        ⟨d, e, henter, hedit, -⟩ | ⟨_, _, _, _, left, -, -, -, hexit, hleft, -⟩
      · rw [hv.enter _ _ _ _ rfl henter] at hedit
        cases hedit
      · rw [hleft, hv.exit _ _ _ _ rfl hexit]
    obtain ⟨hresult, hstate⟩ := visit_of_walk hrun
    exact ⟨root.patch es, ⟨none, es, rfl, hstate ▸ hrun, (patched_eq_patch hhere).symm⟩, hresult⟩

end Walk

end ShaderSource
