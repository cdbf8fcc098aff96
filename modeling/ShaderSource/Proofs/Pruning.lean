import Mathlib.Data.List.Flatten
import ShaderSource.Proofs.Form
import ShaderSource.Proofs.Identity
import ShaderSource.Proofs.Revision

/-!
# Removing nodes

A visitor that only removes nodes leaves a tree that differs from what it was in optional nodes and
in lists: there are fewer of them, and those that stay are in order. Nodes that must be there stay,
and so do all tokens but the separators of lists. What visitors may remove is given by the kind of
the node around and the kind of the slot, so that the same theory serves visitors that remove
anything and visitors that keep to certain lists.

## Main results

* `Node.visit_leftOf`: a visit that only removes leaves a part of the tree.
* `Node.LeftOf.allFit`, `Node.LeftOf.distinct`: what is left of a tree still has its form, and its
  identities are still distinct.
* `Node.LeftOf.origin`: the nodes that are left, with the nodes they are left of.
-/

namespace ShaderSource

open List Node

/-! ### What is left of a tree -/

/-- The first tree is what is left of the second when nodes are removed, where the kind of the node
around and the kind of the slot are allowed. -/
abbrev Node.LeftOf (allowed : Kind → SlotKind → Prop) : Node → Node → Prop :=
  Revises allowed fun _ _ => False

/-- What is left of a part of a node of the given kind. -/
abbrev Part.LeftOf (allowed : Kind → SlotKind → Prop) : Kind → Part → Part → Prop :=
  Part.Revises allowed fun _ _ => False

section LeftOf

variable {allowed : Kind → SlotKind → Prop} {n n' : Node}

theorem Node.LeftOf.inv {kind : Kind} {id : NodeId} {span : Option Span} {ps : List Part}
    (h : n'.LeftOf allowed (.mk kind id span ps)) :
    ∃ qs, n' = .mk kind id span qs ∧ List.Forall₂ (Part.LeftOf allowed kind) qs ps := by
  cases h with
  | swapped h => cases h
  | mk h => exact ⟨_, rfl, Part.allRevise_iff.mp h⟩

namespace Node.LeftOf

variable (h : n'.LeftOf allowed n)

include h

theorem kind : n'.kind = n.kind := by
  obtain ⟨kind, id, span, ps⟩ := n
  obtain ⟨qs, rfl, -⟩ := h.inv
  rfl

theorem id : n'.id = n.id := by
  obtain ⟨kind, id, span, ps⟩ := n
  obtain ⟨qs, rfl, -⟩ := h.inv
  rfl

theorem parts : List.Forall₂ (Part.LeftOf allowed n.kind) n'.parts n.parts := by
  obtain ⟨kind, id, span, ps⟩ := n
  obtain ⟨qs, rfl, hparts⟩ := h.inv
  exact hparts

/-- The children that are left, in order. -/
theorem children :
    ∃ ns, List.Forall₂ (Node.LeftOf allowed) n'.children ns ∧ ns.Sublist n.children := by
  rw [children_eq, children_eq]
  have hparts := h.parts
  generalize n'.parts = qs at hparts
  generalize n.parts = ps at hparts
  induction hparts with
  | nil => exact ⟨[], .nil, Sublist.slnil⟩
  | cons hpart _ ih =>
    obtain ⟨ns, hns, hsub⟩ := hpart.nodes
    obtain ⟨ms, hms, hsub'⟩ := ih
    exact ⟨ns ++ ms, rel_append hns hms, hsub.append hsub'⟩

theorem child {c' : Node} (hc' : c' ∈ n'.children) :
    ∃ c ∈ n.children, c'.LeftOf allowed c := by
  obtain ⟨ns, hns, hsub⟩ := h.children
  obtain ⟨c, hc, hleft⟩ := exists_counterpart hns.flip hc'
  exact ⟨c, hsub.subset hc, hleft⟩

/-- A node that is left is left of a node of the tree. -/
theorem origin {m' : Node} (hm' : m' ∈ n'.preorder) :
    ∃ m ∈ n.preorder, m'.LeftOf allowed m := by
  induction n' using induction generalizing n with
  | h n' ih =>
    rcases mem_preorder_iff.mp hm' with rfl | ⟨c', hc', hmc⟩
    · exact ⟨n, n.mem_preorder_self, h⟩
    · obtain ⟨c, hc, hleft⟩ := h.child hc'
      obtain ⟨m, hm, hmleft⟩ := ih c' hc' hleft hmc
      exact ⟨m, mem_preorder_of_mem_child hc hm, hmleft⟩

theorem ids_sublist : n'.ids.Sublist n.ids := by
  induction n' using induction generalizing n with
  | h n' ih =>
    obtain ⟨ns, hns, hsub⟩ := h.children
    have hall : ∀ {l l' : List Node}, Forall₂ (Node.LeftOf allowed) l l' →
        (∀ m ∈ l, m ∈ n'.children) → (l.flatMap ids).Sublist (l'.flatMap ids) := by
      intro l l' hl
      induction hl with
      | nil => exact fun _ => Sublist.slnil
      | cons hm _ ihl =>
        intro hmem
        rw [forall_mem_cons] at hmem
        exact (ih _ hmem.1 hm).append (ihl hmem.2)
    rw [ids_eq, ids_eq, h.id]
    exact ((hall hns fun _ hm => hm).trans (hsub.flatMap ids)).cons_cons _

/-- The identities of what is left are distinct. -/
theorem distinct (hids : n.Distinct) : n'.Distinct :=
  h.ids_sublist.nodup hids

end Node.LeftOf

theorem Part.LeftOf.fits {kind : Kind} {q p : Part} {f : Field}
    (h : Part.LeftOf allowed kind q p) (hfits : p.Fits f) : q.Fits f := by
  have hshape : q.shape = p.shape := by
    cases h with
    | alike h => cases h <;> rfl
    | noChild | noBranch | list | separated => rfl
  refine ⟨hshape.trans hfits.shape, fun m hm => ?_, ?_⟩
  · obtain ⟨ns, hns, hsub⟩ := h.nodes
    obtain ⟨n, hn, hmn⟩ := exists_counterpart hns.flip hm
    rw [LeftOf.kind hmn]
    exact hfits.kinds n (hsub.subset hn)
  · cases h with
    | alike h =>
      cases h with
      | separated h =>
        have hstep := hfits.inStep
        simp only [Part.inStep, h.length_eq] at hstep ⊢
        exact hstep
      | text | token | optToken | child | noChild | optChild | list | noBranch | branch => rfl
    | noChild | noBranch | list => rfl
    | separated kept _ hkept hms hus => exact inStep_of_kept hkept hms hus

/-- What is left of a tree has the form that the tree had. -/
theorem Node.LeftOf.allFit (h : n'.LeftOf allowed n) (hfit : n.AllFit) : n'.AllFit := by
  intro m' hm'
  obtain ⟨m, hm, hleft⟩ := h.origin hm'
  have hfits : Forall₂ Part.Fits m.parts m.kind.form := hfit m hm
  have hparts := hleft.parts
  rw [Fits, hleft.kind]
  generalize m.kind = kind at hfits hparts
  generalize kind.form = fs at hfits
  generalize m'.parts = qs at hparts ⊢
  generalize m.parts = ps at hparts hfits
  induction hparts generalizing fs with
  | nil => exact hfits
  | cons hpart _ ih =>
    cases hfits with
    | cons hp hps => exact .cons (hpart.fits hp) (ih _ hps)

end LeftOf

/-! ### Visitors that remove -/

section Visits

variable {σ : Type} (allowed : Kind → SlotKind → Prop)

/-- A hook only removes nodes, and only where the kinds of the node around and of the slot are
allowed. -/
def Hook.Removes (hook : Hook σ) : Prop :=
  ∀ path s d s', (hook path).run.run s = (.ok d, s') → ∀ e, d.edit = some e →
    path.remove = .ok e ∧
      ∀ parent key, path.parent = some parent → path.key = some key → allowed parent.kind key.kind

/-- A visitor only removes nodes, and only where the kinds of the node around and of the slot are
allowed. -/
structure Visitor.Removes (v : Visitor σ) : Prop where
  enter : v.enter.Removes allowed
  exit : v.exit.Removes allowed

variable {allowed} {v : Visitor σ}

theorem Hook.Removes.lawful {hook : Hook σ} (h : hook.Removes allowed) : hook.Lawful :=
  fun path s d s' hrun e he => .inl (h path s d s' hrun e he).1

theorem Visitor.Removes.lawful (h : v.Removes allowed) : v.Lawful :=
  ⟨h.enter.lawful, h.exit.lawful⟩

/-- An edit that a path has for a removal is a removal. -/
theorem Path.eq_of_remove {path : Path} {e : Edit} (h : path.remove = .ok e) : e = .remove := by
  rw [Path.remove] at h
  split at h
  · cases h
  · split at h
    · cases h
    · cases h
      rfl

/-- What a node becomes is what is left of it, or it is removed where that is allowed. -/
def Node.Prunes (allowed : Kind → SlotKind → Prop) (parent : Option Node)
    (kind : Option SlotKind) : Node → Option Node → Prop :=
  Survives allowed (fun _ _ => False)
    (∀ above k, parent = some above → kind = some k → allowed above.kind k)

theorem Hook.Removes.survives {hook : Hook σ} (h : hook.Removes allowed) {path : Path}
    {kind : Option SlotKind} (hkind : path.key.map SlotKey.kind = kind) {s s' : σ} {d : Decision}
    (hrun : (hook path).run.run s = (.ok d, s')) {e : Edit} (he : d.edit = some e) :
    path.node.Prunes allowed path.parent kind e.result := by
  obtain ⟨hremove, hallowed⟩ := h path s d s' hrun e he
  obtain rfl := Path.eq_of_remove hremove
  refine ⟨fun _ above k habove hk => ?_, fun n' hn' => by cases hn'⟩
  obtain ⟨key, hkey, rfl⟩ := Option.map_eq_some_iff.mp (hkind.trans hk)
  exact hallowed above key habove hkey

/-- What is left of the nodes of a list that a walk goes over. -/
theorem Node.AllBecome.survive {ancestors : List Node} {kind : SlotKind} {s s' : σ}
    {ns : List Node} {os : List (Option Node)}
    (h : AllBecome v ancestors (· = kind) s ns os s')
    (hns : ∀ n ∈ ns, ∀ kind s o s', n.Becomes v ancestors kind s o s' →
      n.Prunes allowed ancestors.head? kind o) :
    List.Forall₂ (Prunes allowed ancestors.head? (some kind)) ns os := by
  induction h with
  | nil => exact .nil
  | cons hkind hn _ ih =>
    rw [forall_mem_cons] at hns
    exact .cons (hkind ▸ hns.1 _ _ _ _ hn) (ih hns.2)

/-- A walk of a visitor that only removes leaves a part of the node, or removes it. -/
theorem Node.Becomes.survives (hv : v.Removes allowed) {n : Node} (hstep : n.InStep)
    {ancestors : List Node} {kind : Option SlotKind} {s s' : σ} {o : Option Node}
    (h : n.Becomes v ancestors kind s o s') : n.Prunes allowed ancestors.head? kind o := by
  induction n using induction generalizing ancestors kind s s' o with
  | h n ih =>
    obtain ⟨key, d, s₁, hkey, henter,
      ⟨e, hedit, rfl, -⟩ | ⟨s₂, qs, left, -, hqs, hexit, rfl⟩⟩ := h.cases
    · change (Path.mk n ancestors key).node.Prunes allowed (Path.mk n ancestors key).parent _ _
      exact hv.enter.survives hkey henter hedit
    · cases hleft : left.edit with
      | some e =>
        change (Path.mk n ancestors key).node.Prunes allowed (Path.mk n ancestors key).parent
          _ _
        exact hv.exit.survives hkey hexit hleft
      | none =>
        refine ⟨fun hnone => (by cases hnone), fun n' hn' => ?_⟩
        obtain rfl := Option.some.inj hn'
        rcases hqs with ⟨-, -, rfl⟩ | ⟨-, hqs⟩
        · obtain ⟨k, i, span, parts⟩ := n
          exact .refl _
        · have hparts : ∀ {ps qs s s'}, Part.AllBecome v (n :: ancestors) s ps qs s' →
              (∀ p ∈ ps, p ∈ n.parts) → Forall₂ (Part.LeftOf allowed n.kind) qs ps := by
            intro ps qs s s' hbecome
            induction hbecome with
            | nil => exact fun _ => .nil
            | @cons _ p _ _ _ _ _ _ hnodes hpart _ ihparts =>
              intro hmem
              rw [forall_mem_cons] at hmem
              refine .cons (hpart.revises (hstep n n.mem_preorder_self p hmem.1) ?_)
                (ihparts hmem.2)
              refine (hnodes.survive fun c hc _ _ _ _ hbecomes => ?_).imp fun _ _ hprunes =>
                ⟨fun hnone => hprunes.1 hnone n _ rfl rfl, hprunes.2⟩
              have hchild : c ∈ n.children := by
                rw [children_eq]
                exact mem_flatMap.mpr ⟨p, hmem.1, hc⟩
              exact ih c hchild (hstep.child hchild) hbecomes
          have hleftOf := hparts hqs fun _ hp => hp
          obtain ⟨k, i, span, parts⟩ := n
          exact .mk (Part.allRevise_iff.mpr hleftOf)

/-- **A visit that only removes** leaves a part of the tree. -/
theorem Node.visit_leftOf (hv : v.Removes allowed) {root : Node} (hstep : root.InStep) (s : σ) :
    ((root.visit v s).tree root).LeftOf allowed root := by
  rcases visit_cases hv.lawful.keepsRoot root s with ⟨e, hresult⟩ | ⟨tree, hbecomes, hresult⟩
  · rw [Visit.tree, hresult]
    exact .refl _
  · rw [Visit.tree, hresult]
    exact (hbecomes.survives hv hstep).2 tree rfl

end Visits

/-- Removes the nodes that are picked, where they can be removed. -/
def Visitor.removing (pick : Path → Bool) : Visitor Unit where
  enter path := pure
    { Decision.pass with edit := if pick path then path.remove.toOption else none }
  exit := Visitor.idle

theorem Visitor.removing_removes {allowed : Kind → SlotKind → Prop} {pick : Path → Bool}
    (h : ∀ path parent key, pick path = true → path.parent = some parent →
      path.key = some key → allowed parent.kind key.kind) :
    (Visitor.removing pick).Removes allowed where
  enter path _ d _ hrun e he := by
    cases hrun
    dsimp only at he
    split at he
    · rename_i hpick
      refine ⟨?_, fun parent key => h path parent key hpick⟩
      cases hremove : path.remove with
      | error _ => rw [hremove] at he; cases he
      | ok _ => rw [hremove] at he; cases he; rfl
    · cases he
  exit _ _ _ _ hrun _ he := by
    cases hrun
    cases he

end ShaderSource
