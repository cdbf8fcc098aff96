import ShaderSource.Proofs.Visiting
import ShaderSource.Proofs.Walking

/-!
# What edits make of a tree

A tree that was edited is the tree that it was, but for nodes that were swapped for others and for
optional nodes and nodes of lists that were dropped. Nodes that stay are in order, and each node
that stays in a separated list is followed by the separator that followed it; only the last one has
none, unless the list ended with one.

Which nodes may be dropped is given by the kind of the node around and the kind of the slot, and
which may be swapped by a relation between nodes. So the same theory serves edits of any sort, edits
that only drop nodes, and edits that keep to certain lists.

## Main results

* `Part.Assembled.revises`: a part that is put together from revised nodes is revised.
* `Node.patch_revises`: what applying edits makes of a tree.
-/

namespace ShaderSource

open List Node ShaderSource.Part

/-! ### Revised trees -/

section

variable (drops : Kind → SlotKind → Prop) (swaps : Node → Node → Prop)

mutual

/-- The first tree is what the second one is after nodes were dropped and swapped. -/
inductive Node.Revises : Node → Node → Prop
  | swapped {n' n} : swaps n n' → Node.Revises n' n
  | mk {kind id span qs ps} : Part.AllRevise kind qs ps →
      Node.Revises (.mk kind id span qs) (.mk kind id span ps)

/-- The same for the parts of a node of the given kind. -/
inductive Part.AllRevise : Kind → List Part → List Part → Prop
  | nil {kind} : Part.AllRevise kind [] []
  | cons {kind q p qs ps} : Part.Revises kind q p → Part.AllRevise kind qs ps →
      Part.AllRevise kind (q :: qs) (p :: ps)

/-- The same for a part of a node of the given kind. A separated list keeps the nodes at certain
indices, and the separators behind them; the one behind the last of them it keeps if it ended with a
separator. -/
inductive Part.Revises : Kind → Part → Part → Prop
  | alike {kind q p} : Part.Alike Node.Revises q p → Part.Revises kind q p
  | noChild {kind n} : drops kind .optional →
      Part.Revises kind (.optChild none) (.optChild (some n))
  | noBranch {kind t n} : drops kind .optional →
      Part.Revises kind (.branch t none) (.branch t (some n))
  | list {kind ms ns} : drops kind .list → List.SublistForall₂ Node.Revises ms ns →
      Part.Revises kind (.list ms) (.list ns)
  | separated {kind ms ns us ts} (kept : List Nat) : drops kind .list →
      kept.Sublist (List.range ns.length) →
      List.Forall₂ Node.Revises ms (kept.filterMap fun i => ns[i]?) →
      List.Forall₂ (fun i t => ts[i]? = some t)
        (if ts.length = ns.length then kept else kept.dropLast) us →
      Part.Revises kind (.separated ms us) (.separated ns ts)

end

end

/-! ### What is kept of lists -/

section Kept

variable {ns ms : List Node} {ts us : List Token} {kept : List Nat}

theorem length_filterMap_getElem? (hkept : kept.Sublist (List.range ns.length)) :
    (kept.filterMap fun i => ns[i]?).length = kept.length :=
  (filterMap_getElem?_follow fun _ hi => mem_range.mp (hkept.subset hi)).length_eq.symm

/-- The nodes at certain indices of a list, in order. -/
theorem filterMap_getElem?_sublist (hkept : kept.Sublist (List.range ns.length)) :
    (kept.filterMap fun i => ns[i]?).Sublist ns := by
  have hsub := hkept.filterMap fun i => ns[i]?
  rwa [filterMap_getElem?_range, take_length] at hsub

/-- What is kept of a list has its separators in step. -/
theorem inStep_of_kept {R : Node → Node → Prop}
    (hkept : kept.Sublist (List.range ns.length))
    (hms : List.Forall₂ R ms (kept.filterMap fun i => ns[i]?))
    (hus : List.Forall₂ (fun i t => ts[i]? = some t)
      (if ts.length = ns.length then kept else kept.dropLast) us) :
    (Part.separated ms us).inStep = true := by
  have hnodes := hms.length_eq.trans (length_filterMap_getElem? hkept)
  have hseparators := hus.length_eq
  simp only [inStep, Bool.and_eq_true, decide_eq_true_eq]
  split at hseparators
  · omega
  · rw [length_dropLast] at hseparators
    omega

end Kept

/-! ### Trees -/

section Revises

variable {drops : Kind → SlotKind → Prop} {swaps : Node → Node → Prop} {n n' : Node} {kind : Kind}

theorem Part.allRevise_iff {qs ps : List Part} :
    Part.AllRevise drops swaps kind qs ps ↔
      List.Forall₂ (Part.Revises drops swaps kind) qs ps := by
  constructor
  · intro h
    induction ps generalizing qs with
    | nil => cases h; exact .nil
    | cons p ps ih =>
      cases h with
      | cons hpart h => exact .cons hpart (ih h)
  · intro h
    induction h with
    | nil => exact .nil
    | cons hpart _ ih => exact .cons hpart ih

/-- The nodes of a revised part revise nodes of the part, in order. -/
theorem Part.Revises.nodes {q p : Part} (h : Part.Revises drops swaps kind q p) :
    ∃ ns, List.Forall₂ (Node.Revises drops swaps) q.nodes ns ∧ ns.Sublist p.nodes := by
  cases h with
  | alike h => exact ⟨p.nodes, h.nodes, Sublist.refl _⟩
  | noChild | noBranch => exact ⟨[], .nil, nil_sublist _⟩
  | list _ h => exact sublistForall₂_iff.mp h
  | separated kept _ hkept h => exact ⟨_, h, filterMap_getElem?_sublist hkept⟩

theorem Part.Alike.refl {R : Node → Node → Prop} {p : Part} (h : ∀ n ∈ p.nodes, R n n) :
    Part.Alike R p p := by
  have halike := mapNodes_alike (f := fun n => n) h
  rwa [mapNodes_id] at halike

theorem Node.Revises.refl (n : Node) : n.Revises drops swaps n := by
  induction n using Node.induction with
  | h n ih =>
    obtain ⟨kind, id, span, ps⟩ := n
    rw [Node.children_mk] at ih
    refine .mk (Part.allRevise_iff.mpr (forall₂_same.mpr fun p hp => .alike (.refl ?_)))
    exact fun c hc => ih c (mem_flatMap.mpr ⟨p, hp, hc⟩)

/-- What becomes of a node is a revision of it, or it is dropped where that may be. -/
def Node.Survives (drops : Kind → SlotKind → Prop) (swaps : Node → Node → Prop) (mayDrop : Prop)
    (n : Node) (o : Option Node) : Prop :=
  (o = none → mayDrop) ∧ ∀ n', o = some n' → n'.Revises drops swaps n

/-- The nodes that are left of a list are all of them, or some where nodes may be dropped. -/
theorem Node.survives_list {mayDrop : Prop} {ns : List Node} {os : List (Option Node)}
    (h : List.Forall₂ (Node.Survives drops swaps mayDrop) ns os) :
    (∃ ms, os = ms.map some ∧ List.Forall₂ (Node.Revises drops swaps) ms ns) ∨
      none ∈ os ∧ mayDrop := by
  induction h with
  | nil => exact .inl ⟨[], rfl, .nil⟩
  | @cons n o ns os ho _ ih =>
    cases o with
    | none => exact .inr ⟨mem_cons_self, ho.1 rfl⟩
    | some m =>
      rcases ih with ⟨ms, rfl, hms⟩ | ⟨hnone, hdrop⟩
      · exact .inl ⟨m :: ms, rfl, .cons (ho.2 m rfl) hms⟩
      · exact .inr ⟨mem_cons_of_mem _ hnone, hdrop⟩

theorem keptNodes_ascending (index : Nat) (os : List (Option Node)) :
    ((keptNodes index os).map Prod.fst).Sublist (List.range' index os.length) := by
  induction os generalizing index with
  | nil => exact List.Sublist.slnil
  | cons o os ih =>
    rw [length_cons, range'_succ]
    cases o with
    | none => exact (ih (index + 1)).cons _
    | some n => exact (ih (index + 1)).cons_cons _

/-- The nodes that are left of a list, which begins behind others, with the nodes that they
revise. -/
theorem keptNodes_revise {mayDrop : Prop} {ns : List Node} {os : List (Option Node)}
    (before : List Node) (h : List.Forall₂ (Node.Survives drops swaps mayDrop) ns os) :
    List.Forall₂ (Node.Revises drops swaps) ((keptNodes before.length os).map Prod.snd)
      (((keptNodes before.length os).map Prod.fst).filterMap fun i => (before ++ ns)[i]?) := by
  induction h generalizing before with
  | nil => exact .nil
  | @cons n o ns os ho _ ih =>
    have hrest := ih (before ++ [n])
    rw [length_append, length_singleton, append_assoc, singleton_append] at hrest
    cases o with
    | none => exact hrest
    | some m =>
      simp only [keptNodes, Option.map_some, Option.toList_some, singleton_append,
        map_cons, filterMap_cons, getElem?_append_right (Nat.le_refl _), Nat.sub_self,
        getElem?_cons_zero]
      exact .cons (ho.2 m rfl) hrest

/-- A part that is put together from revised nodes is revised. -/
theorem Part.Assembled.revises {p q : Part} {os : List (Option Node)} (h : p.Assembled os q)
    (hstep : p.inStep = true)
    (hos : List.Forall₂ (Node.Survives drops swaps (drops kind p.slotKind)) p.nodes os) :
    Part.Revises drops swaps kind q p := by
  have hkept : ∀ {ns : List Node} {os},
      List.Forall₂ (Node.Survives drops swaps (drops kind .list)) ns os →
      List.Forall₂ (Node.Revises drops swaps) ((keptNodes 0 os).map Prod.snd)
        (((keptNodes 0 os).map Prod.fst).filterMap fun i => ns[i]?) :=
    fun hos => by simpa using keptNodes_revise [] hos
  have hindices : ∀ {ns : List Node} {os}, os.length = ns.length →
      ((keptNodes 0 os).map Prod.fst).Sublist (List.range ns.length) := by
    intro ns os hlength
    rw [← hlength, range_eq_range']
    exact keptNodes_ascending 0 os
  have hall : ∀ ms : List Node, (keptNodes 0 (ms.map some)).map Prod.snd = ms := by
    intro ms
    rw [keptNodes_nodes]
    simp [filterMap_map]
  cases h with
  | text => exact .alike .text
  | token => exact .alike .token
  | optToken => exact .alike .optToken
  | noChild => exact .alike .noChild
  | noBranch => exact .alike .noBranch
  | @child n o =>
    cases hos with
    | cons ho _ =>
      cases o with
      | none => exact .alike (.child (.refl n))
      | some m => exact .alike (.child (ho.2 m rfl))
  | @optChild n o =>
    cases hos with
    | cons ho _ =>
      cases o with
      | none => exact .noChild (ho.1 rfl)
      | some m => exact .alike (.optChild (ho.2 m rfl))
  | @branch t n o =>
    cases hos with
    | cons ho _ =>
      cases o with
      | none => exact .noBranch (ho.1 rfl)
      | some m => exact .alike (.branch (ho.2 m rfl))
  | list hlength =>
    rcases Node.survives_list hos with ⟨ms, rfl, hms⟩ | ⟨-, hdrop⟩
    · rw [hall]
      exact .alike (.list hms)
    · exact .list hdrop (sublistForall₂_iff.mpr
        ⟨_, hkept hos, filterMap_getElem?_sublist (hindices hlength)⟩)
  | @separated ns _ ts ts' hlength hts =>
    rcases Node.survives_list hos with ⟨ms, rfl, hms⟩ | ⟨hnone, hdrop⟩
    · have hsame : ts' = ts := by
        rcases hts with ⟨rfl, -⟩ | rfl
        · rfl
        · simp only [Part.inStep, Bool.and_eq_true, decide_eq_true_eq] at hstep
          rw [length_map] at hlength
          rw [keptNodes_indices, hlength, keptSeparators_all hstep.1]
      rw [hsame, hall]
      exact .alike (.separated hms)
    · rcases hts with ⟨-, hstay⟩ | rfl
      · exact absurd rfl (hstay none hnone)
      · exact .separated _ hdrop (hindices hlength) (hkept hos)
          (keptSeparators_follow hstep (hindices hlength))

end Revises

/-! ### Applying edits -/

section Patch

variable {es : Edits}

/-- What edits keep of a list of nodes `ns` with separators `ts`: the nodes `kept`, each with the
index that it had, and the separators `us`. -/
structure Part.Keeps (es : Edits) (slot : Nat) (ns : List Node) (ts : List Token)
    (kept : List (Nat × Node)) (us : List Token) : Prop where
  /-- The node at an index is kept as what the edits at its own address make of it. -/
  own : ∀ i m, (i, m) ∈ kept ↔ ∃ n, ns[i]? = some n ∧ n.patched (es.below ⟨slot, i⟩) = some m
  ascending : (kept.map Prod.fst).Sublist (List.range ns.length)
  /-- It keeps the separator behind it, the last one only if the list ended with a separator. -/
  separators : List.Forall₂ (fun i t => ts[i]? = some t)
    (if ts.length = ns.length then kept.map Prod.fst else (kept.map Prod.fst).dropLast) us

theorem Node.mem_patchedAll {slot index i : Nat} {ns : List Node} {m : Node} :
    (i, m) ∈ patchedAll es slot index ns ↔ ∃ k n, i = index + k ∧ ns[k]? = some n ∧
      n.patched (es.below ⟨slot, i⟩) = some m := by
  induction ns generalizing index with
  | nil => simp [patchedAll]
  | cons n ns ih =>
    rw [patchedAll, mem_append, ih]
    constructor
    · rintro (hfirst | ⟨k, n', rfl, hn, hm⟩)
      · obtain ⟨m', hm, heq⟩ := Option.map_eq_some_iff.mp (Option.mem_toList.mp hfirst)
        cases heq
        exact ⟨0, n, rfl, rfl, hm⟩
      · exact ⟨k + 1, n', by omega, hn, hm⟩
    · rintro ⟨_ | k, n', rfl, hn, hm⟩
      · cases hn
        exact .inl (by simpa using hm)
      · exact .inr ⟨k, n', by omega, hn, hm⟩

/-- Applying edits to a list whose separators are in step keeps nodes by their own addresses. -/
theorem Part.patch_keeps {ns : List Node} {ts : List Token} (slot : Nat)
    (hstep : (Part.separated ns ts).inStep = true) :
    ∃ kept us, (Part.separated ns ts).patch es slot = .separated (kept.map Prod.snd) us ∧
      Part.Keeps es slot ns ts kept us := by
  have hkept : ((patchedAll es slot 0 ns).map Prod.fst).Sublist (List.range ns.length) := by
    have hsub := keptNodes_ascending 0 (outcomes es slot 0 ns)
    rwa [length_outcomes, ← range_eq_range', ← patchedAll_eq_keptNodes] at hsub
  refine ⟨_, _, by rw [Part.patch], fun i m => ?_, hkept, keptSeparators_follow hstep hkept⟩
  rw [mem_patchedAll]
  simp

variable {swaps : Node → Node → Prop} {kind : Kind}

/-- Parts with edits applied are revised, if all nodes in them are. -/
theorem Part.patchAll_revise {ps : List Part} (hstep : ∀ p ∈ ps, p.inStep = true)
    (h : ∀ n ∈ ps.flatMap Part.nodes, ∀ step n', n.patched (es.below step) = some n' →
      n'.Revises (fun _ _ => True) swaps n) (slot : Nat) :
    List.Forall₂ (Part.Revises (fun _ _ => True) swaps kind) (Part.patchAll es slot ps) ps := by
  induction ps generalizing slot with
  | nil =>
    rw [Part.patchAll]
    exact .nil
  | cons p ps ih =>
    rw [flatMap_cons, forall_mem_append] at h
    rw [forall_mem_cons] at hstep
    rw [Part.patchAll]
    refine .cons ((p.assembled_patch slot).revises hstep.1 ?_) (ih hstep.2 h.2 _)
    have hlist : ∀ (ns : List Node) (index : Nat), (∀ n ∈ ns, n ∈ p.nodes) →
        List.Forall₂ (Node.Survives (fun _ _ => True) swaps True) ns
          (Node.outcomes es slot index ns) := by
      intro ns
      induction ns with
      | nil => exact fun _ _ => .nil
      | cons n ns ihns =>
        intro index hns
        rw [forall_mem_cons] at hns
        exact .cons ⟨fun _ => trivial, h.1 n hns.1 _⟩ (ihns _ hns.2)
    exact hlist p.nodes 0 fun _ hn => hn

/-- What edits make of a node whose separators are in step, if they swap nodes for certain others
only. -/
theorem Node.patched_revises {n n' : Node} (hstep : n.InStep)
    (hswaps : ∀ a m, (a, .replace m) ∈ es → ∀ n, swaps n m) (h : n.patched es = some n') :
    n'.Revises (fun _ _ => True) swaps n := by
  induction n using Node.induction generalizing es n' with
  | h n ih =>
    obtain ⟨kind, id, span, ps⟩ := n
    rw [Node.patched] at h
    split at h
    · rename_i hhere
      obtain rfl := Option.some.inj h
      exact .swapped (hswaps _ _ (Edits.mem_of_here? hhere) _)
    · cases h
    · obtain rfl := Option.some.inj h
      split
      · exact .refl _
      · refine .mk (Part.allRevise_iff.mpr
          (Part.patchAll_revise (hstep _ (mem_preorder_self _)) ?_ 0))
        intro c hc step c' hc'
        rw [Node.parts, ← Node.children_mk kind id span ps] at hc
        exact ih c hc (hstep.child hc) (fun a m hm => hswaps _ m (Edits.mem_below.mp hm)) hc'

/-- **What a visit makes of a tree** whose separators are in step: the root stays, and its parts are
revised by the edits that the walk has gathered. -/
theorem Node.visit_revises {σ : Type} {v : Visitor σ} {root tree : Node} {s s' : σ}
    (hstep : root.InStep) (hwalk : (root.walk v [] none).run.run s = (.ok es, s'))
    (h : (root.visit v s).result = .ok tree) :
    ∃ qs, tree = .mk root.kind root.id root.span qs ∧
      List.Forall₂
        (Part.Revises (fun _ _ => True) (fun _ m => ∃ a, (a, .replace m) ∈ es) root.kind) qs
        root.parts := by
  obtain rfl := Except.ok.inj (h.symm.trans (Node.visit_of_walk hwalk).1)
  obtain ⟨kind, id, span, ps⟩ := root
  refine ⟨_, rfl, ?_⟩
  split
  · exact forall₂_same.mpr fun p _ => .alike (.refl fun n _ => .refl n)
  · refine Part.patchAll_revise (hstep _ (mem_preorder_self _)) ?_ 0
    intro c hc step c' hc'
    rw [Node.parts, ← Node.children_mk kind id span ps] at hc
    refine Node.patched_revises (hstep.child hc) (fun a m hm _ => ?_) hc'
    exact ⟨step :: a, Edits.mem_below.mp hm⟩

end Patch

end ShaderSource
