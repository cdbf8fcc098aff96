import ShaderSource.Edit.Rule
import ShaderSource.Proofs.Rewrite

/-!
# What a visit does

A visit is one pass of rewriting (`Node.rewrite`), for every visitor that gets its edits from the
paths it is asked about. This is not only a matter of results: the visitor is asked the same
questions in the same order. To see that, a visitor can be made to keep a record of its questions;
since that record is part of its state, it comes out the same too.

What rewriting does to a separated list is said by `keptSeparators`. The indices of the nodes that
stay ascend, and each of these nodes keeps the separator that stood behind it, but for the last one,
which has a separator only if the list ended with one.

## Main results

* `EditRule.visitor_lawful`: visitors made of rules get their edits from paths.
* `Node.rewriteAll_ascending`, `keptSeparators_follow`: what is kept of a separated list.
* `Node.visit_refines_rewrite`: a visit is one pass of rewriting.
-/

namespace ShaderSource

open List

variable {path : Path} {d : Decision} {kept : List Nat}

variable {σ : Type}

/-! ### Lawful visitors -/

/-- The edit is one that the path allows. -/
def Path.Allows (path : Path) (e : Edit) : Prop :=
  path.remove = .ok e ∨ ∃ n, path.replace n = .ok e

/-- A hook makes only edits that its path allows. -/
def Hook.Lawful (hook : Hook σ) : Prop :=
  ∀ path s d s', (hook path).run.run s = (.ok d, s') → ∀ e, d.edit = some e → path.Allows e

/-- A visitor makes only edits that its paths allow. -/
structure Visitor.Lawful (v : Visitor σ) : Prop where
  enter : v.enter.Lawful
  exit : v.exit.Lawful

theorem Hook.Lawful.keepsRoot {hook : Hook σ} (h : hook.Lawful) : hook.KeepsRoot := by
  intro path s d s' hkey hrun
  cases hedit : d.edit with
  | none => rfl
  | some e =>
    -- A root stands in no slot, so there is neither a removal nor a replacement of it.
    rcases h path s d s' hrun e hedit with hremove | ⟨n, hreplace⟩
    · simp [Path.remove, hkey] at hremove
    · simp [Path.replace, hkey] at hreplace

theorem Visitor.Lawful.keepsRoot {v : Visitor σ} (h : v.Lawful) : v.KeepsRoot :=
  ⟨h.enter.keepsRoot, h.exit.keepsRoot⟩

/-! ### Rules make lawful visitors -/

namespace EditRule

/-- The edit of a decision, if there is one, is one that the path allows. -/
def Allowed (path : Path) (d : Decision) : Prop :=
  ∀ e, d.edit = some e → path.Allows e

/-- A computation yields only decisions with edits that the path allows. -/
def Decides (path : Path) (m : VisitM Notes Decision) : Prop :=
  ∀ s d s', m.run.run s = (.ok d, s') → Allowed path d

theorem decides_pure (h : Allowed path d) : Decides path (pure d) := by
  intro s d' s' hrun
  obtain ⟨hd, -⟩ := Prod.mk.inj hrun
  exact Except.ok.inj hd ▸ h

theorem decides_note (h : Allowed path d) (text : String) :
    Decides path (do note text; pure d) := by
  intro s d' s' hrun
  obtain ⟨hd, -⟩ := Prod.mk.inj hrun
  exact Except.ok.inj hd ▸ h

theorem decides_decide {edit : Except Error Edit} (h : Allowed path d)
    (hedit : ∀ e, edit = .ok e → path.Allows e) (tolerant : Bool) :
    Decides path (decide tolerant d edit) := by
  cases edit with
  | ok e =>
    refine decides_pure fun e' he' => ?_
    obtain rfl : e = e' := Option.some.inj he'
    exact hedit e rfl
  | error e =>
    cases tolerant with
    | true => exact decides_note h _
    | false =>
      intro s d' s' hrun
      cases hrun

theorem decides_act (h : Allowed path d) (tolerant : Bool) (action : Action) :
    Decides path (act tolerant path d action) := by
  cases action with
  | skip => exact decides_pure h
  | remove => exact decides_decide h (fun _ he => .inl he) tolerant
  | replace make => exact decides_decide h (fun _ he => .inr ⟨make path, he⟩) tolerant
  | note text => exact decides_note h _

/-- A series of steps decides lawfully if each step does. -/
theorem decides_foldlM {α : Type} {f : Decision → α → VisitM Notes Decision}
    (hf : ∀ d a, Allowed path d → Decides path (f d a)) (l : List α) (h : Allowed path d) :
    Decides path (l.foldlM f d) := by
  induction l generalizing d with
  | nil => exact decides_pure h
  | cons a l ih =>
    intro s d' s' hrun
    rw [foldlM_cons, VisitM.run_bind] at hrun
    rcases hstep : (f d a).run.run s with ⟨e | d₁, s₁⟩
    · rw [hstep] at hrun
      cases hrun
    · rw [hstep] at hrun
      exact ih (hf d a h s d₁ s₁ hstep) s₁ d' s' hrun

theorem decides_run (h : Allowed path d) (rule : EditRule) : Decides path (run path d rule) := by
  unfold run
  split
  · exact decides_foldlM (fun _ action hd => decides_act hd rule.tolerant action) _ h
  · exact decides_pure h

theorem hook_lawful (rules : List EditRule) (phase : Phase) : (hook rules phase).Lawful := by
  intro path
  refine decides_foldlM (fun _ rule hd => decides_run hd rule) _ (fun e he => ?_)
  cases he

/-- Visitors made of rules get their edits from paths. -/
theorem visitor_lawful (rules : List EditRule) : (visitor rules).Lawful :=
  ⟨hook_lawful rules .enter, hook_lawful rules .exit⟩

end EditRule

/-! ### Records of questions -/

/-- A question to a visitor: when it was asked, and about which node. -/
abbrev Question := Phase × Path

/-- The hook with a record of what it is asked. -/
def Hook.recorded (phase : Phase) (hook : Hook σ) : Hook (σ × List Question) := fun path s =>
  let (d, s') := (hook path).run.run s.1
  (d, s', s.2 ++ [(phase, path)])

/-- The visitor with a record of what it is asked. -/
def Visitor.recorded (v : Visitor σ) : Visitor (σ × List Question) :=
  ⟨v.enter.recorded .enter, v.exit.recorded .exit⟩

theorem Hook.Lawful.recorded {hook : Hook σ} (h : hook.Lawful) (phase : Phase) :
    (hook.recorded phase).Lawful := by
  intro path s d s' hrun
  have hd : ((hook path).run.run s.1).1 = .ok d := congrArg Prod.fst hrun
  exact h path s.1 d ((hook path).run.run s.1).2 (Prod.ext hd rfl)

theorem Visitor.Lawful.recorded {v : Visitor σ} (h : v.Lawful) : v.recorded.Lawful :=
  ⟨h.enter.recorded .enter, h.exit.recorded .exit⟩

/-! ### Separated lists -/

/-- The indices of the nodes that rewriting keeps ascend. -/
theorem Node.rewriteAll_ascending (v : Visitor σ) (ancestors : List Node) (slot index : Nat)
    (ns : List Node) (s s' : σ) (kept : List (Nat × Node))
    (h : (Node.rewriteAll v ancestors slot index ns).run.run s = (.ok kept, s')) :
    (kept.map Prod.fst).Sublist (List.range' index ns.length) := by
  induction ns generalizing index s s' kept with
  | nil =>
    rw [Node.rewriteAll] at h
    obtain ⟨hkept, -⟩ := Prod.mk.inj h
    rw [← Except.ok.inj hkept]
    exact List.Sublist.slnil
  | cons n ns ih =>
    rw [Node.rewriteAll, VisitM.run_bind] at h
    rcases hfirst : (n.rewrite v ancestors (some ⟨.list, slot, some index⟩)).run.run s with
      ⟨e | first, s₁⟩
    · rw [hfirst] at h
      cases h
    rw [hfirst] at h
    simp only [VisitM.run_bind] at h
    rcases hrest : (Node.rewriteAll v ancestors slot (index + 1) ns).run.run s₁ with
      ⟨e | rest, s₂⟩
    · rw [hrest] at h
      cases h
    rw [hrest] at h
    obtain ⟨hkept, -⟩ := Prod.mk.inj h
    rw [← Except.ok.inj hkept, map_append, length_cons, range'_succ,
      ← singleton_append]
    refine Sublist.append ?_ (ih _ _ _ _ hrest)
    cases first with
    | none => exact nil_sublist _
    | some m => exact Sublist.refl _

theorem filterMap_getElem?_follow {α : Type} {l : List α} {is : List Nat}
    (h : ∀ i ∈ is, i < l.length) :
    List.Forall₂ (fun i a => l[i]? = some a) is (is.filterMap fun i => l[i]?) := by
  induction is with
  | nil => exact .nil
  | cons i is ih =>
    rw [forall_mem_cons] at h
    rw [filterMap_cons_some (getElem?_eq_getElem h.1)]
    exact .cons (getElem?_eq_getElem h.1) (ih h.2)

theorem lt_of_mem_dropLast_range {size i : Nat} (hkept : kept.Sublist (List.range (size + 1)))
    (hi : i ∈ kept.dropLast) : i < size := by
  obtain ⟨last, hlast⟩ : ∃ last, kept = kept.dropLast ++ [last] :=
    ⟨_, (dropLast_append_getLast fun hnil => by rw [hnil] at hi; cases hi).symm⟩
  have hsorted : kept.Pairwise (· < ·) := pairwise_lt_range.sublist hkept
  have hmem : last ∈ List.range (size + 1) := hkept.subset (by rw [hlast]; simp)
  rw [hlast, pairwise_append] at hsorted
  have := hsorted.2.2 i hi last mem_cons_self
  have := mem_range.mp hmem
  omega

/-- Each node that is kept in a list with its separators in step keeps the separator behind it; the
last one has a separator only if the list ended with one. -/
theorem keptSeparators_follow {ns : List Node} {separators : List Token}
    (hstep : (Part.separated ns separators).inStep = true)
    (hkept : kept.Sublist (List.range ns.length)) :
    List.Forall₂ (fun i t => separators[i]? = some t)
      (if separators.length = ns.length then kept else kept.dropLast)
      (keptSeparators ns.length separators kept) := by
  simp only [Part.inStep, Bool.and_eq_true, decide_eq_true_eq] at hstep
  by_cases htrailing : separators.length = ns.length
  · rw [if_pos htrailing]
    have hholders : keptSeparators ns.length separators kept =
        kept.filterMap fun i => separators[i]? := by
      cases ns with
      | nil =>
        obtain rfl : kept = [] := sublist_nil.mp hkept
        simp [keptSeparators]
      | cons n ns => simp [keptSeparators, htrailing]
    rw [hholders]
    refine filterMap_getElem?_follow fun i hi => ?_
    rw [htrailing]
    exact mem_range.mp (hkept.subset hi)
  · rw [if_neg htrailing]
    have hlt : ¬ns.length ≤ separators.length := by omega
    have hlength : ns.length = separators.length + 1 := by omega
    have hholders : keptSeparators ns.length separators kept =
        kept.dropLast.filterMap fun i => separators[i]? := by
      simp [keptSeparators, hlt]
    rw [hholders]
    refine filterMap_getElem?_follow fun i hi => ?_
    exact lt_of_mem_dropLast_range (hlength ▸ hkept) hi

/-! ### Visits -/

/-- The tree that is there after a visit of `root`. -/
def Visit.tree (visit : Visit σ) (root : Node) : Node :=
  match visit.result with
  | .ok tree => tree
  | .error _ => root

/-- A visit ends as a rewriting did: in the same state, and with the same error and the tree as it
was, or with the same tree. -/
def Visit.EndsAs (visit : Visit σ) (root : Node) (rewriting : Except Error (Option Node) × σ) :
    Prop :=
  visit.state = rewriting.2 ∧
    ((∃ e, rewriting.1 = .error e ∧ visit.result = .error e ∧ visit.tree root = root) ∨
      ∃ tree, rewriting.1 = .ok (some tree) ∧ visit.result = .ok tree ∧ visit.tree root = tree)

theorem Node.visit_endsAs {v : Visitor σ} (hv : v.Lawful) {root : Node} (hstep : root.InStep)
    (s : σ) : (root.visit v s).EndsAs root ((root.rewrite v [] none).run.run s) := by
  rcases Node.visit_eq_rewrite hv.keepsRoot hstep s with
    ⟨e, s', hrewrite, hresult, hstate⟩ | ⟨tree, s', hrewrite, hresult, hstate⟩
  · exact ⟨by rw [hstate, hrewrite], .inl ⟨e, by rw [hrewrite], hresult, by
      rw [Visit.tree, hresult]⟩⟩
  · exact ⟨by rw [hstate, hrewrite], .inr ⟨tree, by rw [hrewrite], hresult, by
      rw [Visit.tree, hresult]⟩⟩

/-- **A visit is one pass of rewriting.** For every visitor that gets its edits from its paths and
every tree with its separators in step, a visit ends as rewriting does, and so it does for the
visitor that keeps a record: the questions are the same, in the same order. What rewriting keeps of
a list are nodes in their order, each with the separator that stood behind it. -/
theorem Node.visit_refines_rewrite {v : Visitor σ} (hv : v.Lawful) {root : Node}
    (hstep : root.InStep) (s : σ) :
    (root.visit v s).EndsAs root ((root.rewrite v [] none).run.run s) ∧
    (root.visit v.recorded (s, [])).EndsAs root
      ((root.rewrite v.recorded [] none).run.run (s, [])) ∧
    ∀ m ∈ root.preorder, ∀ ns separators, Part.separated ns separators ∈ m.parts →
      ∀ ancestors slot s s' kept,
        (Node.rewriteAll v ancestors slot 0 ns).run.run s = (.ok kept, s') →
        (kept.map Prod.fst).Sublist (List.range ns.length) ∧
        List.Forall₂ (fun i t => separators[i]? = some t)
          (if separators.length = ns.length then kept.map Prod.fst
            else (kept.map Prod.fst).dropLast)
          (keptSeparators ns.length separators (kept.map Prod.fst)) := by
  refine ⟨Node.visit_endsAs hv hstep s, Node.visit_endsAs hv.recorded hstep (s, []), ?_⟩
  intro m hm ns separators hpart ancestors slot s s' kept hrun
  have hkept := Node.rewriteAll_ascending v ancestors slot 0 ns s s' kept hrun
  rw [← range_eq_range'] at hkept
  exact ⟨hkept, keptSeparators_follow (hstep m hm _ hpart) hkept⟩

/-- The node in the middle of a sequence is removed, and the last one is replaced after what is
below it was visited and replaced. -/
theorem Node.visit_refines_rewrite_sequence :
    let name := fun text trivia => Node.detached .identifier [.token ⟨text, trivia⟩]
    let root := Node.detached .sequence
      [.separated
        [name "a" "", name "b" "", Node.detached .unary [.token ⟨"-", ""⟩, .child (name "c" "")]]
        [⟨",", " "⟩, ⟨",", "  "⟩]]
    let v := EditRule.visitor
      [⟨.enter, some .identifier, fun p => p.key.any fun k => k.index == some 1, [.remove], false⟩,
        ⟨.enter, some .identifier, fun p => p.parent.any fun n => n.kind == .unary,
          [.replace fun _ => name "d" ""], false⟩,
        ⟨.exit, some .unary, fun _ => true, [.replace fun _ => name "e" " "], false⟩]
    v.Lawful ∧ root.InStep ∧
      (root.visit v []).EndsAs root ((root.rewrite v [] none).run.run []) ∧
      ((root.visit v []).tree root).source = "a, e " ∧
      (root.visit v.recorded ([], [])).state.2.map (fun q => q.2.node.kind) =
        [.sequence, .identifier, .identifier, .identifier, .unary, .identifier, .unary,
          .sequence] := by
  intro name root v
  have hv : v.Lawful := EditRule.visitor_lawful _
  have hstep : root.InStep := by
    unfold Node.InStep
    decide +kernel
  exact ⟨hv, hstep, (Node.visit_refines_rewrite hv hstep []).1, by decide +kernel,
    by decide +kernel⟩

end ShaderSource
