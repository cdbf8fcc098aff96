import Mathlib.Data.List.Flatten
import ShaderSource.Proofs.Reference
import ShaderSource.Proofs.Visiting
import ShaderSource.Proofs.Walking

/-!
# Edited programs

A program that was read can be edited by visits and by renamings. Nodes that a visit puts into the
tree are new: they are detached, with all that is below them. What is left of the tree as it was
read keeps its identities and kinds, and nodes stay where they were: right below a node that is not
new there are new nodes and nodes that were right below it before.

So the identities of a program mean in the edited tree what they meant in the tree that was read,
except that nodes may be gone. Detached nodes all have the same identity.

## Main results

* `Node.Becomes.stemsFrom`: what becomes of a node stems from it.
* `Program.Edited.stemsFrom`: an edited tree stems from the tree that was read.
-/

namespace ShaderSource

open List Node Rename

/-! ### New nodes -/

/-- The identifiers and type names in the tree are leaves. -/
def Node.NamesAreLeaves (n : Node) : Prop :=
  ∀ m ∈ n.preorder, m.kind.IsName → ∃ t, m = leaf m.kind m.id m.span t

/-- All nodes of the tree are detached, and its names are leaves. -/
structure Node.IsNew (n : Node) : Prop where
  detached : ∀ m ∈ n.preorder, m.id = NodeId.detached
  names : n.NamesAreLeaves

theorem Node.NamesAreLeaves.below {n m : Node} (h : n.NamesAreLeaves) (hm : m ∈ n.preorder) :
    m.NamesAreLeaves :=
  fun l hl => h l (mem_preorder_trans hm hl)

theorem Node.NamesAreLeaves.child {n c : Node} (h : n.NamesAreLeaves) (hc : c ∈ n.children) :
    c.NamesAreLeaves :=
  h.below (child_mem_preorder hc)

theorem Node.AllFit.namesAreLeaves {n : Node} (h : n.AllFit) : n.NamesAreLeaves :=
  fun m hm hkind => (h m hm).eq_leaf hkind

/-- The identities in a tree that are not those of detached nodes. -/
def Node.attached (n : Node) : List NodeId :=
  n.ids.filter fun i => i ≠ NodeId.detached

theorem Node.attached_eq (n : Node) :
    n.attached =
      [n.id].filter (fun i => i ≠ NodeId.detached) ++ n.children.flatMap Node.attached := by
  rw [Node.attached, ids_eq, ← singleton_append, filter_append, filter_flatMap]
  rfl

/-! ### Stemming from a tree -/

/-- The tree stems from another: it is detached at its root or has the root of the other, its nodes
that are not detached are in the other, once at most, and so are the nodes right above them. -/
structure Node.StemsFrom (n' n : Node) : Prop where
  names : n'.NamesAreLeaves
  root : n'.id = NodeId.detached ∨ n'.id = n.id ∧ n'.kind = n.kind
  attached : n'.attached.Sublist n.attached
  same : ∀ m' ∈ n'.preorder, m'.id ≠ NodeId.detached →
    ∃ m ∈ n.preorder, m.id = m'.id ∧ m.kind = m'.kind
  below : ∀ m' ∈ n'.preorder, ∀ c' ∈ m'.children, c'.id ≠ NodeId.detached →
    ∃ m ∈ n.preorder, ∃ c ∈ m.children,
      m.id = m'.id ∧ m.kind = m'.kind ∧ c.id = c'.id ∧ c.kind = c'.kind

namespace Node.StemsFrom

variable {n n' n'' : Node}

theorem refl (h : n.NamesAreLeaves) : n.StemsFrom n where
  names := h
  root := .inr ⟨rfl, rfl⟩
  attached := Sublist.refl _
  same m' hm' _ := ⟨m', hm', rfl, rfl⟩
  below m' hm' c' hc' _ := ⟨m', hm', c', hc', rfl, rfl, rfl, rfl⟩

theorem trans (h' : n''.StemsFrom n') (h : n'.StemsFrom n) : n''.StemsFrom n where
  names := h'.names
  root := by
    rcases h'.root with hroot | ⟨hid, hkind⟩
    · exact .inl hroot
    · rw [hid, hkind]
      exact h.root
  attached := h'.attached.trans h.attached
  same m'' hm'' hne := by
    obtain ⟨m', hm', hid', hkind'⟩ := h'.same m'' hm'' hne
    obtain ⟨m, hm, hid, hkind⟩ := h.same m' hm' (hid' ▸ hne)
    exact ⟨m, hm, hid.trans hid', hkind.trans hkind'⟩
  below m'' hm'' c'' hc'' hne := by
    obtain ⟨m', hm', c', hc', hid', hkind', hcid', hckind'⟩ := h'.below m'' hm'' c'' hc'' hne
    obtain ⟨m, hm, c, hc, hid, hkind, hcid, hckind⟩ := h.below m' hm' c' hc' (hcid' ▸ hne)
    exact ⟨m, hm, c, hc, hid.trans hid', hkind.trans hkind', hcid.trans hcid',
      hckind.trans hckind'⟩

end Node.StemsFrom

/-- A new node stems from any. -/
theorem Node.IsNew.stemsFrom {n' : Node} (h : n'.IsNew) (n : Node) : n'.StemsFrom n where
  names := h.names
  root := .inl (h.detached n' n'.mem_preorder_self)
  attached := by
    have hnone : n'.attached = [] := by
      rw [Node.attached, filter_eq_nil_iff]
      intro i hi
      obtain ⟨m, hm, rfl⟩ := mem_ids.mp hi
      simp [h.detached m hm]
    rw [hnone]
    exact nil_sublist _
  same m' hm' hne := absurd (h.detached m' hm') hne
  below m' hm' c' hc' hne := by
    refine absurd (h.detached c' ?_) hne
    exact mem_preorder_of_mem_children hm' hc'

/-- A node put together from nodes that stem from its children, in their order, stems from it. -/
theorem Node.StemsFrom.of_children {kind : Kind} {id : NodeId} {span : Option Span}
    {ps qs : List Part}
    (hname : kind.IsName → ∃ t, qs = [.token t]) {ns : List Node}
    (hns : ns.Sublist (ps.flatMap Part.nodes))
    (hR : List.Forall₂ StemsFrom (qs.flatMap Part.nodes) ns) :
    (Node.mk kind id span qs).StemsFrom (.mk kind id span ps) := by
  -- Each child stems from one of the children there were.
  have hchild : ∀ c' ∈ (Node.mk kind id span qs).children,
      ∃ c ∈ (Node.mk kind id span ps).children, c'.StemsFrom c := by
    intro c' hc'
    rw [children_mk] at hc'
    obtain ⟨c, hc, hstems⟩ := exists_counterpart hR.flip hc'
    rw [children_mk]
    exact ⟨c, hns.subset hc, hstems⟩
  refine ⟨fun m' hm' hkind => ?_, .inr ⟨rfl, rfl⟩, ?_, fun m' hm' hne => ?_,
    fun m' hm' c' hc' hne => ?_⟩
  · rcases mem_preorder_iff.mp hm' with rfl | ⟨c', hc', hmc⟩
    · obtain ⟨t, rfl⟩ := hname hkind
      exact ⟨t, rfl⟩
    · obtain ⟨c, -, hstems⟩ := hchild c' hc'
      exact hstems.names m' hmc hkind
  · have hall : ∀ {l l' : List Node}, Forall₂ StemsFrom l l' →
        (l.flatMap Node.attached).Sublist (l'.flatMap Node.attached) := by
      intro l l' hl
      induction hl with
      | nil => exact Sublist.slnil
      | cons h _ ih => exact h.attached.append ih
    rw [attached_eq, attached_eq (.mk kind id span ps), children_mk,
      children_mk]
    exact (Sublist.refl _).append ((hall hR).trans (hns.flatMap Node.attached))
  · rcases mem_preorder_iff.mp hm' with rfl | ⟨c', hc', hmc⟩
    · exact ⟨_, mem_preorder_self _, rfl, rfl⟩
    · obtain ⟨c, hc, hstems⟩ := hchild c' hc'
      obtain ⟨m, hm, hsame⟩ := hstems.same m' hmc hne
      exact ⟨m, mem_preorder_of_mem_child hc hm, hsame⟩
  · rcases mem_preorder_iff.mp hm' with rfl | ⟨d', hd', hmd⟩
    · obtain ⟨c, hc, hstems⟩ := hchild c' hc'
      obtain ⟨hid, hkind⟩ := hstems.root.resolve_left hne
      exact ⟨_, mem_preorder_self _, c, hc, rfl, rfl, hid.symm, hkind.symm⟩
    · obtain ⟨d, hd, hstems⟩ := hchild d' hd'
      obtain ⟨m, hm, hsame⟩ := hstems.below m' hmd c' hc' hne
      exact ⟨m, mem_preorder_of_mem_child hd hm, hsame⟩

theorem Node.NamesAreLeaves.stemsFrom_withName {n : Node} (h : n.NamesAreLeaves) (name : String) :
    (n.withName name).StemsFrom n := by
  rcases n.withName_cases name with ⟨kind, id, span, t, -, rfl, heq⟩ | ⟨-, heq⟩
  · rw [heq]
    exact .of_children (fun _ => ⟨_, rfl⟩) (Sublist.refl _) .nil
  · rw [heq]
    exact .refl h

/-! ### Visits that put in new nodes -/

section Visits

variable {σ : Type} {v : Visitor σ} {n : Node} {ancestors : List Node} {s s' : σ}

/-- A hook puts only new nodes into the tree. -/
def Hook.PutsNew (hook : Hook σ) : Prop :=
  ∀ path s d s', (hook path).run.run s = (.ok d, s') → ∀ n, d.edit = some (.replace n) → n.IsNew

/-- A visitor puts only new nodes into the tree. -/
structure Visitor.PutsNew (v : Visitor σ) : Prop where
  enter : v.enter.PutsNew
  exit : v.exit.PutsNew

/-- What a hook puts in the place of a node stems from it. -/
def Hook.Stems (hook : Hook σ) : Prop :=
  ∀ path s d s', (hook path).run.run s = (.ok d, s') → path.node.NamesAreLeaves →
    ∀ n, d.edit = some (.replace n) → n.StemsFrom path.node

/-- What a visitor puts in the place of a node stems from it. -/
structure Visitor.Stems (v : Visitor σ) : Prop where
  enter : v.enter.Stems
  exit : v.exit.Stems

theorem Visitor.PutsNew.stems (h : v.PutsNew) : v.Stems where
  enter path s d s' hrun _ n hn := (h.enter path s d s' hrun n hn).stemsFrom _
  exit path s d s' hrun _ n hn := (h.exit path s d s' hrun n hn).stemsFrom _

theorem Edit.result_eq_some {e : Edit} (h : e.result = some n) : e = .replace n := by
  cases e with
  | remove => cases h
  | replace m => rw [Option.some.inj h]

/-- A part without nodes stays. -/
theorem Part.AllBecome.token {t : Token} {qs : List Part}
    (h : Part.AllBecome v ancestors s [.token t] qs s') : qs = [.token t] := by
  cases h with
  | cons _ hpart hrest =>
    cases hpart
    cases hrest
    rfl

/-- What becomes of a node stems from it. -/
theorem Node.Becomes.stemsFrom (hv : v.Stems) (hn : n.NamesAreLeaves) {kind : Option SlotKind}
    {n' : Node}
    (h : n.Becomes v ancestors kind s (some n') s') : n'.StemsFrom n := by
  induction n using induction generalizing ancestors kind s s' n' with
  | h n ih =>
    obtain ⟨key, d, s₁, -, henter,
      ⟨e, hedit, ho, -⟩ | ⟨s₂, qs, left, -, hqs, hexit, ho⟩⟩ := h.cases
    · exact hv.enter _ _ _ _ henter hn n' (Edit.result_eq_some ho.symm ▸ hedit)
    · cases hleft : left.edit with
      | some e =>
        rw [hleft] at ho
        exact hv.exit _ _ _ _ hexit hn n' (Edit.result_eq_some (ho.symm : e.result = _) ▸ hleft)
      | none =>
        rw [hleft] at ho
        obtain rfl : n' = _ := Option.some.inj ho
        rcases hqs with ⟨-, -, rfl⟩ | ⟨-, hqs⟩
        · obtain ⟨k, i, span, parts⟩ := n
          exact .refl hn
        · obtain ⟨k, i, span, parts⟩ := n
          have hchildren : ∀ c ∈ parts.flatMap Part.nodes,
              c ∈ (Node.mk k i span parts).children := by
            intro c hc
            rwa [children_mk]
          obtain ⟨ns, hns, hR⟩ := hqs.correspond (R := StemsFrom)
            (fun c hc => .refl (hn.child (hchildren c hc)))
            fun c hc _ _ _ _ hc' => ih c (hchildren c hc) (hn.child (hchildren c hc)) hc'
          refine .of_children (fun hname => ?_) hns hR
          obtain ⟨t, ht⟩ := hn _ (mem_preorder_self _) hname
          cases ht
          exact ⟨t, hqs.token⟩

/-- A tree that is visited stems from what it was. -/
theorem Node.visit_stemsFrom (hroot : v.KeepsRoot) (hv : v.Stems) {root : Node}
    (hn : root.NamesAreLeaves) (s : σ) : ((root.visit v s).tree root).StemsFrom root := by
  rcases visit_cases hroot root s with ⟨e, hresult⟩ | ⟨tree, hbecomes, hresult⟩
  · rw [Visit.tree, hresult]
    exact .refl hn
  · rw [Visit.tree, hresult]
    exact hbecomes.stemsFrom hv hn

end Visits

/-! ### Renamings -/

section Renaming

variable {τ : Type} {target : RenameTarget} {mangle : Mangle τ}

theorem Rename.visitor_stems (target : RenameTarget) (mangle : Mangle τ) :
    (visitor target mangle).Stems where
  enter path s d s' hrun hnames n hn := by
    obtain ⟨new, -, rfl⟩ := enter_ok hrun
    obtain ⟨name, -, heq⟩ := Option.map_eq_some_iff.mp hn
    cases heq
    exact hnames.stemsFrom_withName name
  exit path s d s' hrun _ n hn := by
    cases hrun
    cases hn

/-- A tree that is renamed is what there is after a visit. -/
theorem Node.root_rename (root : Node) (scope : Scope) (target : RenameTarget) (mangle : Mangle τ)
    (mangling : τ) :
    (root.rename scope target mangle mangling).root =
      (root.visit (visitor target mangle) (.start scope target mangling)).tree root := by
  simp only [Node.rename, Visit.tree]
  split <;> rename_i h <;> rw [h]

end Renaming

/-! ### Edited programs -/

/-- The trees that come from the tree of a program by visits that put in only new nodes and by
renamings with its scopes. -/
inductive Program.Edited (p : Program) : Node → Prop
  | read : Edited p p.root
  | visit {σ : Type} {root : Node} {v : Visitor σ} (s : σ) :
      Edited p root → v.Lawful → v.PutsNew → Edited p ((root.visit v s).tree root)
  | rename {τ : Type} {root : Node} {scope : Scope} (target : RenameTarget) (mangle : Mangle τ)
      (mangling : τ) : Edited p root → scope ∈ p.scopes.scopes →
      Edited p (root.rename scope target mangle mangling).root

/-- An edited tree stems from the tree that was read. -/
theorem Program.Edited.stemsFrom {p : Program} {root : Node} (h : p.Edited root)
    (hfit : p.root.AllFit) : root.StemsFrom p.root := by
  induction h with
  | read => exact .refl hfit.namesAreLeaves
  | visit s _ hlawful hnew ih =>
    exact (visit_stemsFrom hlawful.keepsRoot hnew.stems ih.names s).trans ih
  | rename target mangle mangling _ _ ih =>
    rw [root_rename]
    exact (visit_stemsFrom (visitor_keepsRoot target mangle)
      (visitor_stems target mangle) ih.names _).trans ih

end ShaderSource
