import ShaderSource.Edit.Visit
import ShaderSource.Proofs.Tree

/-!
# Visiting as rewriting

A visit first walks over the tree and gathers edits with their addresses, and then applies them.
Rewriting is what this amounts to: one pass, which at each node asks the visitor, takes an edit if
there is one, and otherwise puts the node together from its rewritten parts. There are no
addresses in it, so whatever is to be proved about a visitor is proved about rewriting.

That the two agree rests on the addresses: the edits that the walk gathers below a slot start with
that slot, so among all edits of a node those of a child are found again, and only those.

## Main results

* `Part.patchAll_nil`: without edits, parts stay, if separators are in step.
* `Node.walk_agrees`: applying the edits of a walk is rewriting.
* `Node.visit_eq_rewrite`: so is a visit.
-/

namespace ShaderSource

open Node hiding id span
open Edits List ShaderSource.Part

variable {es es' : Edits} {P : Step → Prop} {slot : Nat} {ps : List Part}

variable {σ : Type}

/-! ### Rewriting -/

/-- What an edit leaves in the place of a node. -/
def Edit.result : Edit → Option Node
  | .remove => none
  | .replace n => some n

/-- Asks a visitor about a node, before and after the nodes below it are dealt with. -/
def Visitor.ask {α β : Type} (v : Visitor σ) (path : Path) (edited : Edit → α) (skipped : β)
    (inner : VisitM σ β) (built : β → α) : VisitM σ α := do
  let entered ← v.enter path
  match entered.edit with
  | some e => return edited e
  | none =>
    let b ← if entered.skip then pure skipped else inner
    let left ← v.exit path
    match left.edit with
    | some e => return edited e
    | none => return built b

section Rewrite

variable (v : Visitor σ)

mutual

/-- What becomes of a node; none if it is removed. -/
def Node.rewrite (ancestors : List Node) (key : Option SlotKey) : Node → VisitM σ (Option Node)
  | .mk kind id span parts => do
    let node := Node.mk kind id span parts
    let path : Path := ⟨node, ancestors, key⟩
    let entered ← v.enter path
    match entered.edit with
    | some e => return e.result
    | none =>
      let inner ←
        if entered.skip then pure parts else Part.rewriteAll (node :: ancestors) 0 parts
      let left ← v.exit path
      match left.edit with
      | some e => return e.result
      | none => return some (.mk kind id span inner)
termination_by structural n => n

/-- What becomes of parts; the next slot has the given index. -/
def Part.rewriteAll (ancestors : List Node) (slot : Nat) : List Part → VisitM σ (List Part)
  | [] => pure []
  | p :: ps => do
    let first ← p.rewrite ancestors slot
    let rest ← Part.rewriteAll ancestors (if p.slot?.isSome then slot + 1 else slot) ps
    return first :: rest
termination_by structural ps => ps

/-- What becomes of a part, which has the given index among the slots. A node that must be there
stays if it is removed. -/
def Part.rewrite (ancestors : List Node) (slot : Nat) : Part → VisitM σ Part
  | .text s => pure (.text s)
  | .token t => pure (.token t)
  | .optToken t => pure (.optToken t)
  | .child n => do
    return .child ((← n.rewrite ancestors (some ⟨.required, slot, none⟩)).getD n)
  | .optChild none => pure (.optChild none)
  | .optChild (some n) => do
    return .optChild (← n.rewrite ancestors (some ⟨.optional, slot, none⟩))
  | .list ns => do
    return .list ((← Node.rewriteAll ancestors slot 0 ns).map Prod.snd)
  | .separated ns separators => do
    let kept ← Node.rewriteAll ancestors slot 0 ns
    return .separated (kept.map Prod.snd) (keptSeparators ns.length separators (kept.map Prod.fst))
  | .branch word none => pure (.branch word none)
  | .branch word (some n) => do
    return .branch word (← n.rewrite ancestors (some ⟨.optional, slot, none⟩))
termination_by structural p => p

/-- What becomes of the nodes of a list, which begins at the given index: those that are kept, each
with the index it had. -/
def Node.rewriteAll (ancestors : List Node) (slot index : Nat) :
    List Node → VisitM σ (List (Nat × Node))
  | [] => pure []
  | n :: ns => do
    let first ← n.rewrite ancestors (some ⟨.list, slot, some index⟩)
    let rest ← Node.rewriteAll ancestors slot (index + 1) ns
    return (first.map fun m => (index, m)).toList ++ rest
termination_by structural ns => ns

end

end Rewrite

/-! ### Computations that agree -/

namespace VisitM

variable {α β γ δ : Type}

theorem run_bind (m : VisitM σ α) (f : α → VisitM σ β) (s : σ) :
    (m >>= f).run.run s =
      match m.run.run s with
      | (.ok a, s') => (f a).run.run s'
      | (.error e, s') => (.error e, s') := by
  change ((ExceptT.run m >>= ExceptT.bindCont f).run s) = _
  rw [StateT.run_bind]
  rcases m.run.run s with ⟨e | a, s'⟩ <;> rfl

/-- Two computations agree under an invariant if from every state that has it they end in the same
state, both with the same error or both with results that `P` relates, and the invariant still
holds. -/
def Agree (I : σ → Prop) (m : VisitM σ α) (m' : VisitM σ β) (P : α → β → Prop) : Prop :=
  ∀ s, I s → (∃ e s', m.run.run s = (.error e, s') ∧ m'.run.run s = (.error e, s')) ∨
    ∃ a b s', m.run.run s = (.ok a, s') ∧ m'.run.run s = (.ok b, s') ∧ P a b ∧ I s'

variable {I : σ → Prop}

theorem Agree.pure {a : α} {b : β} {P : α → β → Prop} (h : P a b) :
    Agree I (Pure.pure a) (Pure.pure b) P :=
  fun s hs => .inr ⟨a, b, s, rfl, rfl, h, hs⟩

theorem Agree.mono {m : VisitM σ α} {m' : VisitM σ β} {P Q : α → β → Prop} (h : Agree I m m' P)
    (hPQ : ∀ a b, P a b → Q a b) : Agree I m m' Q := by
  intro s hs
  rcases h s hs with herror | ⟨a, b, s', hm, hm', hP, hs'⟩
  · exact .inl herror
  · exact .inr ⟨a, b, s', hm, hm', hPQ a b hP, hs'⟩

theorem Agree.refl (m : VisitM σ α) (h : ∀ s a s', I s → m.run.run s = (.ok a, s') → I s') :
    Agree I m m fun a b => a = b ∧ ∃ s s', m.run.run s = (.ok a, s') := by
  intro s hs
  rcases hrun : m.run.run s with ⟨e | a, s'⟩
  · exact .inl ⟨e, s', rfl, rfl⟩
  · exact .inr ⟨a, a, s', rfl, rfl, ⟨rfl, s, s', hrun⟩, h s a s' hs hrun⟩

theorem Agree.bind {m : VisitM σ α} {m' : VisitM σ β} {f : α → VisitM σ γ} {g : β → VisitM σ δ}
    {P : α → β → Prop} {Q : γ → δ → Prop} (hm : Agree I m m' P)
    (hf : ∀ a b, P a b → Agree I (f a) (g b) Q) : Agree I (m >>= f) (m' >>= g) Q := by
  intro s hs
  rw [run_bind, run_bind]
  rcases hm s hs with ⟨e, s', h, h'⟩ | ⟨a, b, s', h, h', hP, hs'⟩
  · exact .inl ⟨e, s', by rw [h], by rw [h']⟩
  · rw [h, h']
    exact hf a b hP s' hs'

end VisitM

/-! ### Edits by their first steps -/

namespace Edits

/-- All edits are below a node, their first steps among the given ones. -/
def Start (es : Edits) (P : Step → Prop) : Prop :=
  ∀ e ∈ es, ∃ step rest, e.1 = step :: rest ∧ P step

theorem start_nil (P : Step → Prop) : Start [] P := by
  intro e he
  cases he

theorem Start.append (h : es.Start P) (h' : es'.Start P) : Start (es ++ es') P := by
  intro e he
  rcases mem_append.mp he with he | he
  · exact h e he
  · exact h' e he

theorem Start.mono {Q : Step → Prop} (h : es.Start P) (hPQ : ∀ s, P s → Q s) : es.Start Q := by
  intro e he
  obtain ⟨step, rest, heq, hP⟩ := h e he
  exact ⟨step, rest, heq, hPQ step hP⟩

theorem start_under (es : Edits) (step : Step) : (es.under step).Start (· = step) := by
  intro e he
  obtain ⟨e', -, rfl⟩ := mem_map.mp he
  exact ⟨step, e'.1, rfl, rfl⟩

theorem mem_below {step : Step} {a : Address} {e : Edit} :
    (a, e) ∈ es.below step ↔ (step :: a, e) ∈ es := by
  rw [below, mem_filterMap]
  constructor
  · rintro ⟨⟨address, e'⟩, hmem, heq⟩
    cases address with
    | nil => cases heq
    | cons s rest =>
      simp only [Option.ite_none_right_eq_some, Option.some.injEq, Prod.mk.injEq] at heq
      obtain ⟨rfl, rfl, rfl⟩ := heq
      exact hmem
  · exact fun hmem => ⟨_, hmem, if_pos rfl⟩

theorem mem_of_here? {e : Edit} (h : es.here? = some e) : ([], e) ∈ es := by
  obtain ⟨⟨address, e'⟩, hmem, heq⟩ := exists_of_findSome?_eq_some h
  cases address with
  | nil =>
    obtain rfl : e' = e := by simpa using heq
    exact hmem
  | cons => simp at heq

theorem below_append (es es' : Edits) (step : Step) :
    below (es ++ es') step = es.below step ++ es'.below step :=
  filterMap_append

theorem below_under (es : Edits) (step : Step) : (es.under step).below step = es := by
  induction es with
  | nil => rfl
  | cons e es ih =>
    rw [under, map_cons, below, filterMap_cons]
    simp only [if_true]
    exact congrArg (e :: ·) ih

/-- There are no edits below steps that none starts with. -/
theorem Start.below_eq_nil (h : es.Start P) {step : Step} (hstep : ¬P step) :
    es.below step = [] := by
  rw [below, filterMap_eq_nil_iff]
  intro e he
  obtain ⟨first, rest, heq, hP⟩ := h e he
  have hne : first ≠ step := fun hsame => hstep (hsame ▸ hP)
  simp [heq, hne]

/-- Edits below a node leave the node itself alone. -/
theorem Start.here?_eq_none (h : es.Start P) : es.here? = none := by
  rw [here?, findSome?_eq_none_iff]
  intro e he
  obtain ⟨first, rest, heq, -⟩ := h e he
  simp [heq]

theorem here?_append (h : es.here? = none) : here? (es ++ es') = es'.here? := by
  rw [here?, findSome?_append, ← here?, h]
  rfl

/-- There is at most one edit for an address. -/
def Distinct (es : Edits) : Prop :=
  es.Pairwise fun x y => x.1 ≠ y.1

theorem Distinct.under (h : es.Distinct) (step : Step) : (es.under step).Distinct :=
  pairwise_map.mpr (h.imp fun hne heq => hne (cons.inj heq).2)

/-- Edits with different first steps have different addresses. -/
theorem Distinct.append {Q : Step → Prop} (h : es.Distinct) (h' : es'.Distinct)
    (hstart : es.Start P) (hstart' : es'.Start Q) (hPQ : ∀ step, P step → ¬Q step) :
    Distinct (es ++ es') := by
  refine pairwise_append.mpr ⟨h, h', fun x hx y hy heq => ?_⟩
  obtain ⟨step, rest, hx, hP⟩ := hstart x hx
  obtain ⟨step', rest', hy, hQ⟩ := hstart' y hy
  rw [hx, hy] at heq
  cases heq
  exact hPQ step hP hQ

end Edits

/-! ### Patching by first steps -/

/-- The nodes that are left of a list, each with its index. The list begins at the given index. -/
def keptNodes (index : Nat) : List (Option Node) → List (Nat × Node)
  | [] => []
  | o :: os => (o.map fun n => (index, n)).toList ++ keptNodes (index + 1) os

theorem keptNodes_nodes (index : Nat) (os : List (Option Node)) :
    (keptNodes index os).map Prod.snd = os.filterMap fun o => o := by
  induction os generalizing index with
  | nil => rfl
  | cons o os ih => cases o <;> simp [keptNodes, ih]

theorem keptNodes_indices (index : Nat) (ns : List Node) :
    (keptNodes index (ns.map some)).map Prod.fst = List.range' index ns.length := by
  induction ns generalizing index with
  | nil => rfl
  | cons n ns ih => simp [keptNodes, ih, range'_succ]

/-- What edits make of the nodes of a part, the first one at the given index. -/
def Node.outcomes (es : Edits) (slot index : Nat) : List Node → List (Option Node)
  | [] => []
  | n :: ns => n.patched (es.below ⟨slot, index⟩) :: outcomes es slot (index + 1) ns

theorem Node.patchedAll_eq_keptNodes (slot index : Nat) (ns : List Node) :
    patchedAll es slot index ns = keptNodes index (outcomes es slot index ns) := by
  induction ns generalizing index with
  | nil => simp [patchedAll, outcomes, keptNodes]
  | cons n ns ih => rw [patchedAll, ih, outcomes, keptNodes]

theorem Node.outcomes_congr {ns : List Node} {index : Nat}
    (h : ∀ i, index ≤ i → es.below ⟨slot, i⟩ = es'.below ⟨slot, i⟩) :
    Node.outcomes es slot index ns = Node.outcomes es' slot index ns := by
  induction ns generalizing index with
  | nil => rfl
  | cons n ns ih =>
    rw [outcomes, outcomes, h index (Nat.le_refl _),
      ih fun i hi => h i (Nat.le_of_succ_le hi)]

theorem Part.patch_congr (p : Part) (h : ∀ i, es.below ⟨slot, i⟩ = es'.below ⟨slot, i⟩) :
    p.patch es slot = p.patch es' slot := by
  have hall : ∀ ns, patchedAll es slot 0 ns = patchedAll es' slot 0 ns := by
    intro ns
    rw [patchedAll_eq_keptNodes, outcomes_congr fun i _ => h i,
      ← patchedAll_eq_keptNodes]
  cases p with
  | text | token | optToken => simp [patch]
  | child => simp [patch, h]
  | optChild n | branch _ n => cases n <;> simp [patch, h]
  | list | separated => simp [patch, hall]

theorem Part.patchAll_congr (h : ∀ step : Step, slot ≤ step.slot → es.below step = es'.below step) :
    Part.patchAll es slot ps = Part.patchAll es' slot ps := by
  induction ps generalizing slot with
  | nil => simp [patchAll]
  | cons p ps ih =>
    rw [patchAll, patchAll, p.patch_congr fun i => h ⟨slot, i⟩ (Nat.le_refl _)]
    congr 1
    refine ih fun step hstep => h step ?_
    split at hstep <;> omega

/-- The edits of a node of a list and those of the nodes behind it are each found again. -/
theorem Node.outcomes_cons {rest : Edits} {index : Nat} (first : Edits)
    (h : rest.Start fun step => step.slot = slot ∧ index + 1 ≤ step.index) (n : Node)
    (ns : List Node) :
    Edits.Start (first.under ⟨slot, index⟩ ++ rest)
        (fun step => step.slot = slot ∧ index ≤ step.index) ∧
      Node.outcomes (first.under ⟨slot, index⟩ ++ rest) slot index (n :: ns) =
        n.patched first :: Node.outcomes rest slot (index + 1) ns := by
  constructor
  · refine ((start_under first _).mono ?_).append (h.mono ?_)
    · rintro step rfl
      exact ⟨rfl, Nat.le_refl _⟩
    · rintro step ⟨hslot, hindex⟩
      exact ⟨hslot, Nat.le_of_succ_le hindex⟩
  · have hbelow : Edits.below (first.under ⟨slot, index⟩ ++ rest) ⟨slot, index⟩ = first := by
      rw [below_append, below_under, h.below_eq_nil fun hle => Nat.not_succ_le_self _ hle.2,
        append_nil]
    rw [outcomes, hbelow]
    congr 1
    refine outcomes_congr fun i hi => ?_
    rw [below_append, (start_under first _).below_eq_nil, nil_append]
    intro hsame
    rw [Step.mk.injEq] at hsame
    omega

/-- The edits of a part and those of the parts behind it are each found again. -/
theorem Part.patchAll_cons {first rest : Edits} {p : Part}
    (hfirst : first.Start fun step => p.slot?.isSome = true ∧ step.slot = slot)
    (hrest : rest.Start fun step => (if p.slot?.isSome then slot + 1 else slot) ≤ step.slot)
    (ps : List Part) :
    Edits.Start (first ++ rest) (fun step => slot ≤ step.slot) ∧
      Part.patchAll (first ++ rest) slot (p :: ps) = p.patch first slot ::
        Part.patchAll rest (if p.slot?.isSome then slot + 1 else slot) ps := by
  have hpatch : p.patch (first ++ rest) slot = p.patch first slot := by
    cases hslot : p.slot?.isSome with
    | true =>
      refine p.patch_congr fun i => ?_
      rw [below_append, hrest.below_eq_nil, append_nil]
      simp [hslot]
    | false =>
      cases p with
      | text | token | optToken => simp [patch]
      | child | optChild | list | separated | branch => cases hslot
  refine ⟨(hfirst.mono fun step hstep => Nat.le_of_eq hstep.2.symm).append
    (hrest.mono fun step hstep => ?_), ?_⟩
  · split at hstep <;> omega
  · rw [patchAll, hpatch]
    congr 1
    refine patchAll_congr fun step hstep => ?_
    rw [below_append, hfirst.below_eq_nil, nil_append]
    rintro ⟨hslot, hsame⟩
    rw [if_pos hslot] at hstep
    omega

/-! ### Without edits -/

theorem Node.patched_nil (n : Node) : n.patched [] = some n := by
  cases n
  simp [patched, Edits.here?]

theorem Node.outcomes_nil (slot index : Nat) (ns : List Node) :
    Node.outcomes [] slot index ns = ns.map some := by
  induction ns generalizing index with
  | nil => rfl
  | cons n ns ih => rw [outcomes, ih, map_cons, below, filterMap_nil, patched_nil]

theorem filterMap_getElem?_range {α : Type} (l : List α) (n : Nat) :
    (List.range n).filterMap (fun i => l[i]?) = l.take n := by
  induction n with
  | zero => rfl
  | succ n ih =>
    rw [range_succ, filterMap_append, ih, take_add_one]
    cases h : l[n]? <;> simp [h]

/-- A list that keeps all its nodes keeps the separators behind them. -/
theorem keptSeparators_range (size : Nat) (separators : List Token) :
    keptSeparators size separators (List.range' 0 size) = separators.take size := by
  rw [keptSeparators, ← range_eq_range']
  by_cases htrailing : (0 < size && size ≤ separators.length) = true
  · rw [if_pos htrailing, filterMap_getElem?_range]
  · rw [if_neg htrailing]
    cases size with
    | zero => rfl
    | succ size =>
      have hlt : separators.length ≤ size := by
        simp only [Nat.zero_lt_succ, decide_true, Bool.true_and, decide_eq_true_eq] at htrailing
        omega
      rw [range_succ, dropLast_concat, filterMap_getElem?_range,
        take_of_length_le hlt, take_of_length_le (Nat.le_succ_of_le hlt)]

theorem keptSeparators_all {size : Nat} {separators : List Token}
    (h : separators.length ≤ size) :
    keptSeparators size separators (List.range' 0 size) = separators :=
  (keptSeparators_range size separators).trans (take_of_length_le h)

theorem Part.patch_nil {p : Part} (h : p.inStep = true) (slot : Nat) : p.patch [] slot = p := by
  have hbelow : ∀ step, Edits.below [] step = [] := fun _ => rfl
  cases p with
  | text | token | optToken => simp [patch]
  | child => simp [patch, hbelow, patched_nil]
  | optChild n | branch _ n => cases n <;> simp [patch, hbelow, patched_nil]
  | list ns => simp [patch, patchedAll_eq_keptNodes, outcomes_nil, keptNodes_nodes]
  | separated ns ts =>
    simp only [inStep, Bool.and_eq_true, decide_eq_true_eq] at h
    simp [patch, patchedAll_eq_keptNodes, outcomes_nil, keptNodes_nodes,
      keptNodes_indices, keptSeparators_all h.1]

/-- Without edits, parts stay, if their separators are in step. -/
theorem Part.patchAll_nil (h : ∀ p ∈ ps, p.inStep = true) (slot : Nat) :
    Part.patchAll [] slot ps = ps := by
  induction ps generalizing slot with
  | nil => simp [patchAll]
  | cons p ps ih =>
    rw [forall_mem_cons] at h
    rw [patchAll, patch_nil h.1, ih h.2]

/-! ### Walking and rewriting -/

/-- A hook that makes edits only where there is a slot for them: a root has none. -/
def Hook.KeepsRoot (hook : Hook σ) : Prop :=
  ∀ path s d s', path.key = none → (hook path).run.run s = (.ok d, s') → d.edit = none

/-- A visitor that cannot edit the root. -/
structure Visitor.KeepsRoot (v : Visitor σ) : Prop where
  enter : v.enter.KeepsRoot
  exit : v.exit.KeepsRoot

section Walk

variable {v : Visitor σ}

/-- What a walk over a node gathers is what rewriting does to it, and if the node is a root, there
is no edit of the node itself. -/
def Node.Agrees (v : Visitor σ) (n : Node) : Prop :=
  ∀ ancestors key,
    VisitM.Agree (fun _ => True) (n.walk v ancestors key) (n.rewrite v ancestors key) fun es o =>
      o = n.patched es ∧ (v.KeepsRoot → key = none → es.here? = none)

theorem Node.walkAll_agrees {ns : List Node} (h : ∀ n ∈ ns, n.Agrees v) (ancestors : List Node)
    (slot index : Nat) :
    VisitM.Agree (fun _ => True) (Node.walkAll v ancestors slot index ns)
      (Node.rewriteAll v ancestors slot index ns) fun es kept =>
        es.Start (fun step => step.slot = slot ∧ index ≤ step.index) ∧
          kept = Node.patchedAll es slot index ns := by
  induction ns generalizing index with
  | nil =>
    rw [walkAll, rewriteAll]
    exact .pure ⟨start_nil _, by simp [patchedAll]⟩
  | cons n ns ih =>
    rw [forall_mem_cons] at h
    rw [walkAll, rewriteAll]
    refine (h.1 ancestors _).bind fun first o ho =>
      (ih h.2 (index + 1)).bind fun rest kept hrest => .pure ?_
    obtain ⟨hstart, rfl⟩ := hrest
    obtain ⟨rfl, -⟩ := ho
    obtain ⟨hall, houtcomes⟩ := outcomes_cons first hstart n ns
    refine ⟨hall, ?_⟩
    rw [patchedAll_eq_keptNodes, patchedAll_eq_keptNodes, houtcomes, keptNodes]

/-- The first computation gathers edits in the slot of a part, and the second one applies them. -/
def Part.Agree (p : Part) (slot : Nat) (m : VisitM σ Edits) (m' : VisitM σ Part) : Prop :=
  VisitM.Agree (fun _ => True) m m' fun es q =>
    es.Start (fun step => p.slot?.isSome = true ∧ step.slot = slot) ∧ q = p.patch es slot

theorem Part.walk_agrees {p : Part} (h : ∀ n ∈ p.nodes, n.Agrees v) (ancestors : List Node)
    (slot : Nat) : p.Agree slot (p.walk v ancestors slot) (p.rewrite v ancestors slot) := by
  have hnone : ∀ p : Part, p.patch [] slot = p → p.Agree (σ := σ) slot (pure []) (pure p) :=
    fun p hp => .pure ⟨start_nil _, hp.symm⟩
  have hone : ∀ {n : Node} {key : Option SlotKey} (make : Option Node → Part),
      p.slot?.isSome = true → n.Agrees v →
      (∀ es, patch (es.under ⟨slot, 0⟩) slot p = make (n.patched es)) →
      p.Agree slot (do return (← n.walk v ancestors key).under ⟨slot, 0⟩)
        (do return make (← n.rewrite v ancestors key)) := by
    intro n key make hslot hn hmake
    refine (hn ancestors key).bind fun es o ho => .pure ⟨?_, ?_⟩
    · exact (start_under es _).mono fun step hstep => ⟨hslot, hstep ▸ rfl⟩
    · rw [hmake, ho.1]
  have hlist : ∀ {ns : List Node} (make : List (Nat × Node) → Part),
      p.slot?.isSome = true → (∀ n ∈ ns, n.Agrees v) →
      (∀ es, p.patch es slot = make (Node.patchedAll es slot 0 ns)) →
      p.Agree slot (Node.walkAll v ancestors slot 0 ns)
        (do return make (← Node.rewriteAll v ancestors slot 0 ns)) := by
    intro ns make hslot hns hmake
    rw [← bind_pure (Node.walkAll v ancestors slot 0 ns)]
    refine (Node.walkAll_agrees hns ancestors slot 0).bind fun es kept hes => .pure ⟨?_, ?_⟩
    · exact hes.1.mono fun step hstep => ⟨hslot, hstep.1⟩
    · rw [hmake, hes.2]
  cases p with
  | text | token | optToken =>
    rw [walk, rewrite]
    exact hnone _ (by simp [patch])
  | child n =>
    rw [walk, rewrite]
    exact hone (fun o => .child (o.getD n)) rfl (h n (by simp [nodes]))
      fun es => by rw [patch, below_under]
  | optChild n | branch word n =>
    cases n with
    | none =>
      rw [walk, rewrite]
      exact hnone _ (by simp [patch])
    | some n =>
      rw [walk, rewrite]
      exact hone _ rfl (h n (by simp [nodes])) fun es => by
        rw [patch, below_under]
  | list ns =>
    rw [walk, rewrite]
    exact hlist (fun kept => .list (kept.map Prod.snd)) rfl h fun es => by rw [patch]
  | separated ns ts =>
    rw [walk, rewrite]
    exact hlist _ rfl h fun es => by rw [patch]

theorem Part.walkAll_agrees (h : ∀ n ∈ ps.flatMap Part.nodes, n.Agrees v) (ancestors : List Node)
    (slot : Nat) : VisitM.Agree (fun _ => True) (Part.walkAll v ancestors slot ps)
      (Part.rewriteAll v ancestors slot ps) fun es qs =>
        es.Start (fun step => slot ≤ step.slot) ∧ qs = Part.patchAll es slot ps := by
  induction ps generalizing slot with
  | nil =>
    rw [walkAll, rewriteAll]
    exact .pure ⟨start_nil _, by simp [patchAll]⟩
  | cons p ps ih =>
    rw [flatMap_cons, forall_mem_append] at h
    rw [walkAll, rewriteAll]
    refine (walk_agrees h.1 ancestors slot).bind fun first q hfirst =>
      (ih h.2 _).bind fun rest qs hrest => .pure ?_
    obtain ⟨hfirst, rfl⟩ := hfirst
    obtain ⟨hrest, rfl⟩ := hrest
    obtain ⟨hall, hpatched⟩ := patchAll_cons hfirst hrest ps
    exact ⟨hall, hpatched.symm⟩

/-- One of the hooks, asked about the node, decides on the edit. -/
def Visitor.Decides (v : Visitor σ) (path : Path) (e : Edit) : Prop :=
  ∃ s d s', ((v.enter path).run.run s = (.ok d, s') ∨ (v.exit path).run.run s = (.ok d, s')) ∧
    d.edit = some e

/-- A walk over a node goes as asking about it does, if it goes so over the parts. The result is
that of an edit of the node, if the visitor decides on one, and else that of the edits below it. -/
theorem Node.walk_asks {α β : Type} {kind : Kind} {id : NodeId} {span : Option Span}
    {ancestors : List Node} {key : Option SlotKey} {edited : Edit → α} {skipped : β}
    {inner : VisitM σ β} {built : β → α} {P : Edits → α → Prop} {Q : Edits → β → Prop}
    (hinner : VisitM.Agree (fun _ => True)
      (Part.walkAll v (.mk kind id span ps :: ancestors) 0 ps) inner fun es b =>
        es.Start (fun step => 0 ≤ step.slot) ∧ Q es b)
    (hskipped : Q [] skipped)
    (hbuilt : ∀ es b, es.here? = none → Q es b → P es (built b))
    (hedited : ∀ es e, es.here? = some e → v.Decides ⟨.mk kind id span ps, ancestors, key⟩ e →
      P es (edited e)) :
    VisitM.Agree (fun _ => True) (Node.walk v ancestors key (.mk kind id span ps))
      (v.ask ⟨.mk kind id span ps, ancestors, key⟩ edited skipped inner built) P := by
  -- What is left to do once the parts are done.
  have hleave : ∀ (es : Edits) (b : β),
      es.Start (fun step => 0 ≤ step.slot) ∧ Q es b →
      VisitM.Agree (fun _ => True)
        (do
          let left ← v.exit ⟨.mk kind id span ps, ancestors, key⟩
          return es ++ left.edits)
        (do
          let left ← v.exit ⟨.mk kind id span ps, ancestors, key⟩
          match left.edit with
          | some e => return edited e
          | none => return built b) P := by
    rintro es b ⟨hstart, hb⟩
    refine (VisitM.Agree.refl _ fun _ _ _ _ _ => trivial).bind fun left _ hleft => ?_
    obtain ⟨rfl, s, s', hrun⟩ := hleft
    cases hedit : left.edit with
    | none =>
      refine .pure ?_
      rw [Decision.edits, hedit, append_nil]
      exact hbuilt es b hstart.here?_eq_none hb
    | some e =>
      refine .pure (hedited _ e ?_ ⟨s, left, s', .inr hrun, hedit⟩)
      rw [Decision.edits, hedit, here?_append hstart.here?_eq_none]
      rfl
  rw [walk, Visitor.ask]
  refine (VisitM.Agree.refl _ fun _ _ _ _ _ => trivial).bind fun entered _ hentered => ?_
  obtain ⟨rfl, s, s', hrun⟩ := hentered
  cases hedit : entered.edit with
  | some e =>
    simp only [Option.isSome_some, if_true]
    refine .pure (hedited _ e ?_ ⟨s, entered, s', .inl hrun, hedit⟩)
    rw [Decision.edits, hedit]
    rfl
  | none =>
    simp only [Option.isSome_none, Bool.false_eq_true, if_false]
    cases entered.skip with
    | true => exact (VisitM.Agree.pure ⟨start_nil _, hskipped⟩).bind hleave
    | false => exact hinner.bind hleave

/-- A visitor that cannot edit the root decides on no edit of it. -/
theorem Visitor.KeepsRoot.key_ne {path : Path} {e : Edit} (hv : v.KeepsRoot)
    (h : v.Decides path e) : path.key ≠ none := by
  intro hkey
  obtain ⟨s, d, s', hrun | hrun, hedit⟩ := h
  · rw [hv.enter _ _ _ _ hkey hrun] at hedit
    cases hedit
  · rw [hv.exit _ _ _ _ hkey hrun] at hedit
    cases hedit

/-- Applying the edits of a walk is rewriting. -/
theorem Node.walk_agrees (v : Visitor σ) {n : Node} (hstep : n.InStep) : n.Agrees v := by
  induction n using induction with
  | h n ih =>
    obtain ⟨kind, id, span, parts⟩ := n
    intro ancestors key
    have hchildren : ∀ n ∈ parts.flatMap nodes, n.Agrees v := by
      intro n hn
      rw [← children_mk kind id span parts] at hn
      exact ih n hn (hstep.child hn)
    have hnil : patchAll [] 0 parts = parts :=
      patchAll_nil (hstep _ (mem_preorder_self _)) 0
    rw [rewrite]
    refine walk_asks (Part.walkAll_agrees hchildren _ 0) hnil.symm ?_ ?_
    · rintro es qs hhere rfl
      refine ⟨?_, fun _ _ => hhere⟩
      rw [patched, hhere]
      cases es with
      | nil => rw [hnil]; rfl
      | cons e es => rfl
    · intro es e hhere hdecides
      refine ⟨?_, fun hv hkey => absurd hkey (hv.key_ne hdecides)⟩
      rw [patched, hhere]
      cases e <;> rfl

end Walk

/-! ### Visits -/

/-- Edits below a node that leave it alone change only its parts. -/
theorem Node.patched_eq_patch {n : Node} (h : es.here? = none) :
    n.patched es = some (n.patch es) := by
  obtain ⟨kind, id, span, parts⟩ := n
  rw [patched, patch, h]

/-- A visit applies the edits of its walk. -/
theorem Node.visit_of_walk {v : Visitor σ} {root : Node} {s s' : σ}
    (h : (root.walk v [] none).run.run s = (.ok es, s')) :
    (root.visit v s).result = .ok (root.patch es) ∧ (root.visit v s).state = s' := by
  cases root
  cases es <;> simp [visit, h, patch]

/-- A visit ends like rewriting: with the same error or the same tree, and in the same state. -/
theorem Node.visit_eq_rewrite {v : Visitor σ} (hv : v.KeepsRoot) {root : Node}
    (hstep : root.InStep) (s : σ) :
    (∃ e s', (root.rewrite v [] none).run.run s = (.error e, s') ∧
      (root.visit v s).result = .error e ∧ (root.visit v s).state = s') ∨
    ∃ root' s', (root.rewrite v [] none).run.run s = (.ok (some root'), s') ∧
      (root.visit v s).result = .ok root' ∧ (root.visit v s).state = s' := by
  rcases walk_agrees v hstep [] none s trivial with ⟨e, s', hwalk, hrewrite⟩ |
    ⟨es, o, s', hwalk, hrewrite, ⟨rfl, hhere⟩, -⟩
  · left
    exact ⟨e, s', hrewrite, by rw [visit, hwalk], by rw [visit, hwalk]⟩
  · right
    rw [patched_eq_patch (hhere hv rfl)] at hrewrite
    exact ⟨root.patch es, s', hrewrite, visit_of_walk hwalk⟩

end ShaderSource
