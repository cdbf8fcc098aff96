import ShaderSource.Proofs.Relabel
import ShaderSource.Proofs.Walking

/-!
# Renaming as relabelling

The walk of a renaming meets the nodes of a tree in pre-order. At each it does two things: if the
node is a reference, it asks for the new name of it, which is then pending for the leaf of the
reference; and if a name is pending for the node, it takes it. The pending names are for leaves, so
the walk passes by no reference, and all in all a renaming is a pass over the list of nodes,
followed by relabelling with the names that were taken.

What a pass does is then a matter of lists. If the references have leaves, each its own, and none
comes before its reference, the pass asks for a name once for each reference and takes them all.

## Main results

* `Node.Passable.walks`: the walk of a renaming does what a pass over the nodes of the tree does.
* `Node.Becomes.relabel`: what becomes of a node is told by the names that a pass takes.
* `Rename.pass_names`: the names that a pass takes if each reference has a leaf of its own.
* `Node.rename_eq`: what a renaming does in that case.
-/

namespace ShaderSource

open List Node Option Registry Rename VisitM

variable {target : RenameTarget} {n root : Node} {name : String} {path : Path}
  {names : Registry NodeId String} {l : List Node} {e : NodeId × String} {scope : Scope} {τ : Type}

/-! ### The leaf of a reference -/

/-- The leaf of a reference is in it, and is of a kind that carries a name. -/
theorem Node.namedLeaf_mem {leaf : Node} (h : n.namedLeaf target = .ok leaf) :
    leaf ∈ n.preorder ∧ leaf.kind.IsName := by
  induction n using induction with
  | h n ih =>
    -- Where the leaf is looked for in a child.
    have hbelow : ∀ {p : Prop} [Decidable p] {k : Kind} {c : Node}, c ∈ n.children →
        (if p then c.namedLeaf target else .error k) = .ok leaf →
        leaf ∈ n.preorder ∧ leaf.kind.IsName := by
      intro p _ k c hc hif
      split at hif
      · obtain ⟨hmem, hkind⟩ := ih c hc hif
        exact ⟨mem_preorder_of_mem_child hc hmem, hkind⟩
      · cases hif
    -- Where it is a node that is known.
    have hthis : ∀ {p : Prop} [Decidable p] {k : Kind} {c : Node}, c ∈ n.preorder →
        c.kind.IsName → (if p then .ok c else .error k) = Except.ok leaf →
        leaf ∈ n.preorder ∧ leaf.kind.IsName := by
      intro p _ k c hc hkind hif
      split at hif
      · cases hif
        exact ⟨hc, hkind⟩
      · cases hif
    unfold namedLeaf at h
    split at h
    case h_1 =>
      split at h
      · cases h
      · cases h
        exact ⟨mem_preorder_self _, .inl rfl⟩
    case h_2 => exact hthis (mem_preorder_self _) (.inr rfl) h
    case h_13 =>
      refine hthis ?_ (.inl rfl) h
      simp [preorder, Part.preorders, Part.preorder]
    case h_14 =>
      refine hthis ?_ (.inr rfl) h
      simp [preorder, Part.preorders, Part.preorder]
    case h_15 => cases h
    all_goals exact hbelow (by simp [Part.nodes]) h

/-- A node that fits and is of a kind that carries a name is a leaf. -/
theorem Node.Fits.eq_leaf (h : n.Fits) (hkind : n.kind.IsName) :
    ∃ t, n = leaf n.kind n.id n.span t := by
  obtain ⟨kind, id, span, parts⟩ := n
  have hform : kind.form = [.token] := by
    rcases hkind with hkind | hkind <;> (rw [kind_mk] at hkind; rw [hkind]; rfl)
  have hparts : List.Forall₂ Part.Fits parts kind.form := h
  rw [hform] at hparts
  obtain ⟨p, ps, hp, hps, rfl⟩ := forall₂_cons_right_iff.mp hparts
  obtain ⟨t, rfl⟩ := Part.fits_token.mp hp
  cases hps
  exact ⟨t, rfl⟩

/-! ### Passes -/

namespace Rename

variable {τ : Type}

/-- Takes the name that is pending for a node. -/
def take (n : Node) : VisitM (RenameState τ) (Option String) := do
  let s ← get
  match s.pending.get? n.id with
  | none => pure none
  | some new =>
    set { s with pending := s.pending.erase n.id }
    pure (some new)

section Pass

variable (target : RenameTarget) (mangle : Mangle τ)

/-- What the walk does at a node: the name that it takes for it. -/
def meet (n : Node) : VisitM (RenameState τ) (Option String) := do
  resolve target mangle n
  take n

/-- Goes over nodes, and gives what it takes for each. -/
def pass (l : List Node) : VisitM (RenameState τ) (List (Option String)) :=
  l.mapM (meet target mangle)

/-- A pass over the nodes comes from the state `s` to `s'`. -/
def Passes (s : RenameState τ) (l : List Node) (s' : RenameState τ) : Prop :=
  ∃ names, (pass target mangle l).run.run s = (.ok names, s')

end Pass

/-! ### What the walk does at a node -/

/-- What is decided about a node that takes a name, or none. -/
def exchanged (path : Path) : Option String → Except Error Decision
  | none => .ok Decision.pass
  | some new =>
    (path.replace (path.node.withName new)).map fun e => { Decision.pass with edit := some e }

section Meet

variable {target : RenameTarget} {mangle : Mangle τ} {n : Node} {s s₁ s' : RenameState τ}
  {new : Option String} {xs : List (Option String)}

theorem run_get (s : RenameState τ) :
    (get : VisitM (RenameState τ) (RenameState τ)).run.run s = (.ok s, s) :=
  rfl

theorem run_set (s s' : RenameState τ) :
    (set s' : VisitM (RenameState τ) PUnit).run.run s = (.ok ⟨⟩, s') :=
  rfl

/-- A node that is no reference. -/
theorem resolve_of_none (h : s.references.get? n.id = none) :
    (resolve target mangle n).run.run s = (.ok (), s) := by
  simp only [resolve, run_bind, run_get, h]
  rfl

/-- A reference whose leaf is not to be found. -/
theorem resolve_of_error {kind : Kind} (h : s.references.get? n.id = some name)
    (hleaf : n.namedLeaf target = .error kind) : (resolve target mangle n).run.run s =
      (.error (.unrecognizedReference kind),
        { s with
          references := s.references.erase n.id
          mangling := ((mangle name n).run s.mangling).2 }) := by
  simp only [resolve, run_bind, run_get, h, hleaf]
  rfl

/-- A reference with its leaf. -/
theorem resolve_of_ok {leaf : Node} (h : s.references.get? n.id = some name)
    (hleaf : n.namedLeaf target = .ok leaf) : (resolve target mangle n).run.run s =
      (.ok (),
        { references := s.references.erase n.id
          pending := s.pending.insert leaf.id ((mangle name n).run s.mangling).1
          log := s.log ++ [.changingName name ((mangle name n).run s.mangling).1]
          mangling := ((mangle name n).run s.mangling).2 }) := by
  simp only [resolve, run_bind, run_get, h, hleaf]
  rfl

theorem take_run (s : RenameState τ) : (take n).run.run s =
      (.ok (s.pending.get? n.id), { s with pending := s.pending.erase n.id }) := by
  simp only [take, run_bind, run_get]
  cases h : s.pending.get? n.id with
  | none =>
    rw [erase_of_get?_eq_none h]
    rfl
  | some new => rfl

theorem exchange_run (s : RenameState τ) : (exchange path).run.run s =
      (exchanged path (s.pending.get? path.node.id),
        { s with pending := s.pending.erase path.node.id }) := by
  simp only [exchange, run_bind, run_get]
  cases h : s.pending.get? path.node.id with
  | none =>
    rw [erase_of_get?_eq_none h]
    rfl
  | some new =>
    simp only [run_bind, run_set, exchanged]
    cases path.replace (path.node.withName new) <;> rfl

/-- The walk does at a node what a pass does there, and decides what follows from it. -/
theorem enter_run (path : Path) (s : RenameState τ) :
    ((visitor target mangle).enter path).run.run s =
      (((meet target mangle path.node).run.run s).1.bind (exchanged path),
        ((meet target mangle path.node).run.run s).2) := by
  simp only [visitor, meet, run_bind]
  rcases (resolve target mangle path.node).run.run s with ⟨e | _, s₁⟩
  · rfl
  · simp only [exchange_run, take_run]
    rfl

theorem enter_ok {d : Decision}
    (h : ((visitor target mangle).enter path).run.run s = (.ok d, s')) :
    ∃ new, (meet target mangle path.node).run.run s = (.ok new, s') ∧
      d = ⟨false, new.map fun name => .replace (path.node.withName name)⟩ := by
  rw [enter_run] at h
  rcases hmeet : (meet target mangle path.node).run.run s with ⟨e | new, s₁⟩
  · rw [hmeet] at h
    cases h
  · rw [hmeet, Prod.mk.injEq] at h
    obtain ⟨hd, rfl⟩ := h
    refine ⟨new, rfl, ?_⟩
    cases new with
    | none =>
      cases hd
      rfl
    | some name =>
      simp only [Except.bind, exchanged, Path.replace] at hd
      cases hkey : path.key <;> (rw [hkey] at hd; cases hd)
      rfl

/-- What the walk does at a node: it takes what is pending for it, if it is no reference; and if it
is one, the name for its leaf is pending before that. -/
theorem meet_cases (h : (meet target mangle n).run.run s = (.ok new, s')) :
    (s.references.get? n.id = none ∧ new = s.pending.get? n.id ∧
      s' = { s with pending := s.pending.erase n.id }) ∨
    ∃ name leaf, s.references.get? n.id = some name ∧ n.namedLeaf target = .ok leaf ∧
      new = (s.pending.insert leaf.id ((mangle name n).run s.mangling).1).get? n.id ∧
      s'.references = s.references.erase n.id ∧
      s'.pending = (s.pending.insert leaf.id ((mangle name n).run s.mangling).1).erase n.id ∧
      s'.mangling = ((mangle name n).run s.mangling).2 := by
  rw [meet, run_bind] at h
  cases hname : s.references.get? n.id with
  | none =>
    simp only [resolve_of_none hname, take_run] at h
    cases h
    exact .inl ⟨rfl, rfl, rfl⟩
  | some name =>
    cases hleaf : n.namedLeaf target with
    | error kind =>
      rw [resolve_of_error hname hleaf] at h
      cases h
    | ok leaf =>
      simp only [resolve_of_ok hname hleaf, take_run] at h
      cases h
      exact .inr ⟨name, leaf, rfl, rfl, rfl, rfl, rfl, rfl⟩

/-- What has to be so for the walk to come by a node, and what it leaves of the references. -/
theorem meet_ok (hrefs : s.references.Unique)
    (h : (meet target mangle n).run.run s = (.ok new, s')) : s'.references.Unique ∧
      (∀ i, s'.references.get? i = if n.id = i then none else s.references.get? i) ∧
      (s.references.get? n.id ≠ none → ∃ leaf, n.namedLeaf target = .ok leaf) := by
  rcases meet_cases h with ⟨hnone, -, rfl⟩ | ⟨name, leaf, -, hleaf, -, hreferences, -⟩
  · refine ⟨hrefs, fun i => ?_, fun hne => absurd hnone hne⟩
    rw [← get?_erase hrefs, erase_of_get?_eq_none hnone]
  · rw [hreferences]
    exact ⟨hrefs.erase _, get?_erase hrefs _, fun _ => ⟨leaf, hleaf⟩⟩

theorem exists_meet (mangle : Mangle τ)
    (h : s.references.get? n.id ≠ none → ∃ leaf, n.namedLeaf target = .ok leaf) :
    ∃ new s', (meet target mangle n).run.run s = (.ok new, s') := by
  rw [meet, run_bind]
  cases hname : s.references.get? n.id with
  | none => exact ⟨_, _, by rw [resolve_of_none hname]; exact take_run s⟩
  | some name =>
    obtain ⟨leaf, hleaf⟩ := h (by simp [hname])
    exact ⟨_, _, by rw [resolve_of_ok hname hleaf]; exact take_run _⟩

variable (target mangle) in
theorem visitor_keepsRoot : (visitor target mangle).KeepsRoot where
  enter := by
    intro path s d s' hkey hrun
    obtain ⟨new, hmeet, rfl⟩ := enter_ok hrun
    rw [enter_run, hmeet] at hrun
    cases new with
    | none => rfl
    | some name =>
      simp only [Except.bind, exchanged, Path.replace, hkey] at hrun
      cases hrun
  exit := by
    rintro path s d s' - hrun
    cases hrun
    rfl

end Meet

end Rename

/-! ### References and their new names -/

/-- The references among nodes, each with its name, where `names` gives the names of references. -/
def Rename.calls (names : NodeId → Option String) (l : List Node) : List (String × Node) :=
  l.filterMap fun n => (names n.id).map fun name => (name, n)

/-- The new names of references, asked for one after the other. -/
def Mangle.answers {τ : Type} (mangle : Mangle τ) (calls : List (String × Node)) :
    StateM τ (List String) :=
  calls.mapM fun c => mangle c.1 c.2

/-- The answers as new names for the leaves of the references. -/
def Rename.newNames (target : RenameTarget) (calls : List (String × Node))
    (answers : List String) : Registry NodeId String :=
  (calls.zip answers).filterMap fun (c, new) =>
    (c.2.namedLeaf target).toOption.map fun leaf => (leaf.id, new)

namespace Rename

variable {τ : Type} {target : RenameTarget} {mangle : Mangle τ} {R : NodeId → Option String}

theorem calls_append (l l' : List Node) : calls R (l ++ l') = calls R l ++ calls R l' :=
  filterMap_append

variable (mangle) in
theorem answers_append (c c' : List (String × Node)) (m : τ) :
    (mangle.answers (c ++ c')).run m =
      (((mangle.answers c).run m).1 ++ ((mangle.answers c').run ((mangle.answers c).run m).2).1,
        ((mangle.answers c').run ((mangle.answers c).run m).2).2) := by
  simp only [Mangle.answers, mapM_append, StateT.run_bind]
  rfl

theorem length_answers (c : List (String × Node)) (m : τ) :
    ((mangle.answers c).run m).1.length = c.length := by
  induction c generalizing m with
  | nil => rfl
  | cons e c ih =>
    simp only [Mangle.answers, mapM_cons, StateT.run_bind] at ih ⊢
    exact congrArg (· + 1) (ih _)

/-- A new name is for the leaf of a reference. -/
theorem mem_newNames {answers : List String} (h : e ∈ newNames target (calls R l) answers) :
    ∃ n ∈ l, R n.id ≠ none ∧ ∃ leaf, n.namedLeaf target = .ok leaf ∧ leaf.id = e.1 := by
  obtain ⟨⟨⟨name, n⟩, new⟩, hmem, heq⟩ := mem_filterMap.mp h
  obtain ⟨m, hm, hcall⟩ := mem_filterMap.mp (of_mem_zip hmem).1
  obtain ⟨name', hname, hpair⟩ := map_eq_some_iff.mp hcall
  cases hpair
  obtain ⟨leaf, hleaf, rfl⟩ := map_eq_some_iff.mp heq
  refine ⟨n, hm, by simp [hname], leaf, ?_, rfl⟩
  cases hn : n.namedLeaf target with
  | error kind => simp [hn, Except.toOption] at hleaf
  | ok leaf' =>
    simp only [hn, Except.toOption, some.injEq] at hleaf
    rw [hleaf]

theorem ite_mem_cons {α : Type} {i k : NodeId} {ks : List NodeId} (a b : α) :
    (if i ∈ k :: ks then a else b) = if i ∈ ks then a else if k = i then a else b := by
  by_cases hi : i ∈ ks
  · simp [hi]
  · by_cases hk : k = i
    · simp [hk]
    · simp [hi, hk, Ne.symm hk]

/-! ### States along a pass -/

section States

variable {n : Node} {l l' : List Node} {s s₁ s' : RenameState τ} {new : Option String}
  {xs : List (Option String)}

theorem pass_cons_ok : (pass target mangle (n :: l)).run.run s = (.ok xs, s') ↔
    ∃ new s₁ rest, (meet target mangle n).run.run s = (.ok new, s₁) ∧
      (pass target mangle l).run.run s₁ = (.ok rest, s') ∧ xs = new :: rest := by
  rw [pass, mapM_cons]
  constructor
  · intro h
    obtain ⟨new, s₁, hmeet, h⟩ := bind_ok h
    obtain ⟨rest, s₂, hrest, h⟩ := bind_ok h
    cases h
    exact ⟨new, s₁, rest, hmeet, hrest, rfl⟩
  · rintro ⟨new, s₁, rest, hmeet, hrest, rfl⟩
    rw [pass] at hrest
    rw [run_bind, hmeet]
    simp only [run_bind, hrest]
    rfl

/-- A pass over nodes and then over others takes for each what it takes over all of them. -/
theorem pass_append_map {f : Node → Option String}
    (h : (pass target mangle (l ++ l')).run.run s = (.ok ((l ++ l').map f), s')) :
    ∃ s₁, (pass target mangle l).run.run s = (.ok (l.map f), s₁) ∧
      (pass target mangle l').run.run s₁ = (.ok (l'.map f), s') := by
  induction l generalizing s with
  | nil => exact ⟨s, rfl, h⟩
  | cons n l ih =>
    obtain ⟨new, s₁, rest, hmeet, hrest, heq⟩ := pass_cons_ok.mp h
    rw [cons_append, map_cons, cons.injEq] at heq
    obtain ⟨rfl, rfl⟩ := heq
    obtain ⟨s₂, hfirst, hlast⟩ := ih hrest
    exact ⟨s₂, pass_cons_ok.mpr ⟨_, _, _, hmeet, hfirst, rfl⟩, hlast⟩

theorem Passes.nil : Passes target mangle s [] s :=
  ⟨[], rfl⟩

theorem passes_nil_iff : Passes target mangle s [] s' ↔ s' = s := by
  constructor
  · rintro ⟨names, h⟩
    cases h
    rfl
  · rintro rfl
    exact .nil

theorem passes_cons_iff : Passes target mangle s (n :: l) s' ↔
    ∃ new s₁, (meet target mangle n).run.run s = (.ok new, s₁) ∧
      Passes target mangle s₁ l s' := by
  simp only [Passes, pass_cons_ok]
  constructor
  · rintro ⟨_, new, s₁, rest, hmeet, hrest, -⟩
    exact ⟨new, s₁, hmeet, rest, hrest⟩
  · rintro ⟨new, s₁, hmeet, rest, hrest⟩
    exact ⟨_, new, s₁, rest, hmeet, hrest, rfl⟩

theorem Passes.append (h : Passes target mangle s l s₁) (h' : Passes target mangle s₁ l' s') :
    Passes target mangle s (l ++ l') s' := by
  induction l generalizing s with
  | nil =>
    rw [passes_nil_iff] at h
    subst h
    exact h'
  | cons n l ih =>
    obtain ⟨new, s₂, hmeet, hrest⟩ := passes_cons_iff.mp h
    exact passes_cons_iff.mpr ⟨new, s₂, hmeet, ih hrest⟩

/-- Nodes that are no references and for which nothing is pending do not change the state. -/
theorem passes_idle (hreferences : ∀ m ∈ l, s.references.get? m.id = none)
    (hpending : ∀ m ∈ l, s.pending.get? m.id = none) : Passes target mangle s l s := by
  induction l with
  | nil => exact .nil
  | cons n l ih =>
    rw [forall_mem_cons] at hreferences hpending
    refine passes_cons_iff.mpr ⟨none, s, ?_, ih hreferences.2 hpending.2⟩
    rw [meet, run_bind, resolve_of_none hreferences.1]
    refine (take_run s).trans ?_
    rw [hpending.1, erase_of_get?_eq_none hpending.1]

/-! What is the same in all states of a renaming. -/

/-- The names that are pending are for leaves of the tree. -/
def Awaits (root : Node) (s : RenameState τ) : Prop :=
  ∀ e ∈ s.pending, ∃ m ∈ root.preorder, m.id = e.1 ∧ m.kind.IsName

/-- The state is one of a renaming of the tree: only what `R` names is still to be found, and names
are pending for leaves of the tree. -/
structure Steady (root : Node) (R : NodeId → Option String) (s : RenameState τ) : Prop where
  references : s.references.Unique
  pending : s.pending.Unique
  listed : ∀ i, R i = none → s.references.get? i = none
  awaits : Awaits root s

theorem Steady.meet (hs : Steady root R s) (hn : n ∈ root.preorder)
    (h : (meet target mangle n).run.run s = (.ok new, s')) : Steady root R s' := by
  rcases meet_cases h with ⟨-, -, rfl⟩ | ⟨name, leaf, -, hleaf, -, hreferences, hpending, -⟩
  · exact ⟨hs.references, hs.pending.erase _, hs.listed,
      fun e he => hs.awaits e (mem_erase he)⟩
  · refine ⟨hreferences ▸ hs.references.erase _, hpending ▸ (hs.pending.insert _ _).erase _,
      fun i hi => ?_, fun e he => ?_⟩
    · rw [hreferences, get?_erase hs.references]
      split
      · rfl
      · exact hs.listed i hi
    · rw [hpending] at he
      rcases mem_insert (mem_erase he) with rfl | he
      · obtain ⟨hmem, hkind⟩ := namedLeaf_mem hleaf
        exact ⟨leaf, mem_preorder_trans hn hmem, rfl, hkind⟩
      · exact hs.awaits e he

theorem Steady.passes (hs : Steady root R s) (hl : ∀ n ∈ l, n ∈ root.preorder)
    (h : Passes target mangle s l s') : Steady root R s' := by
  induction l generalizing s with
  | nil =>
    rw [passes_nil_iff] at h
    exact h ▸ hs
  | cons n l ih =>
    rw [forall_mem_cons] at hl
    obtain ⟨new, s₁, hmeet, hrest⟩ := passes_cons_iff.mp h
    exact ih (hs.meet hl.1 hmeet) hl.2 hrest

/-- After a pass no node that it met is still to be found, and others are as before. -/
theorem Passes.references (hunique : s.references.Unique) (h : Passes target mangle s l s')
    (i : NodeId) : s'.references.get? i =
      if i ∈ l.map Node.id then none else s.references.get? i := by
  induction l generalizing s with
  | nil =>
    rw [passes_nil_iff] at h
    rw [h]
    rfl
  | cons n l ih =>
    obtain ⟨new, s₁, hmeet, hrest⟩ := passes_cons_iff.mp h
    obtain ⟨hunique₁, hkept, -⟩ := meet_ok hunique hmeet
    rw [ih hunique₁ hrest, hkept, map_cons, ite_mem_cons]

/-- If no leaf of a node comes before the node, then after a pass nothing is pending for the nodes
that it met, and for others what was pending before. -/
theorem Passes.pending (hunique : s.pending.Unique)
    (hleaf : ∀ l₁ n l₂, l = l₁ ++ n :: l₂ → ∀ leaf, n.namedLeaf target = .ok leaf →
      leaf.id ∈ (n :: l₂).map Node.id)
    (h : Passes target mangle s l s') (i : NodeId) :
    s'.pending.get? i = if i ∈ l.map Node.id then none else s.pending.get? i := by
  induction l generalizing s with
  | nil =>
    rw [passes_nil_iff] at h
    rw [h]
    rfl
  | cons n l ih =>
    obtain ⟨new, s₁, hmeet, hrest⟩ := passes_cons_iff.mp h
    have hrestLeaf : ∀ l₁ m l₂, l = l₁ ++ m :: l₂ → ∀ leaf, m.namedLeaf target = .ok leaf →
        leaf.id ∈ (m :: l₂).map Node.id := by
      rintro l₁ m l₂ rfl
      exact hleaf (n :: l₁) m l₂ rfl
    rw [map_cons, ite_mem_cons]
    rcases meet_cases hmeet with ⟨-, -, rfl⟩ | ⟨name, leaf, -, hnamed, -, -, hpending, -⟩
    · rw [ih (hunique.erase _) hrestLeaf hrest]
      congr 1
      exact get?_erase hunique _ _
    · have hunique₁ : s₁.pending.Unique := hpending ▸ (hunique.insert _ _).erase _
      rw [ih hunique₁ hrestLeaf hrest]
      by_cases hi : i ∈ l.map Node.id
      · rw [if_pos hi, if_pos hi]
      · rw [if_neg hi, if_neg hi, hpending, get?_erase (hunique.insert _ _),
          get?_insert]
        by_cases hn : n.id = i
        · rw [if_pos hn, if_pos hn]
        · have hne : leaf.id ≠ i := by
            rintro rfl
            rcases mem_cons.mp (hleaf [] n l rfl leaf hnamed) with heq | hmem
            · exact hn heq.symm
            · exact hi hmem
          rw [if_neg hn, if_neg hn, if_neg hne]

/-- References by which a pass comes have leaves. -/
theorem Passes.leaf (hunique : s.references.Unique) (hnodup : (l.map Node.id).Nodup)
    (h : Passes target mangle s l s') (hn : n ∈ l) (href : s.references.get? n.id ≠ none) :
    ∃ leaf, n.namedLeaf target = .ok leaf := by
  induction l generalizing s with
  | nil => cases hn
  | cons m l ih =>
    rw [map_cons, nodup_cons] at hnodup
    obtain ⟨new, s₁, hmeet, hrest⟩ := passes_cons_iff.mp h
    obtain ⟨hunique₁, hkept, hleaf⟩ := meet_ok hunique hmeet
    rcases mem_cons.mp hn with rfl | hn
    · exact hleaf href
    · have hne : m.id ≠ n.id := fun heq => hnodup.1 (heq ▸ mem_map_of_mem hn)
      exact ih hunique₁ hnodup.2 hrest hn (by rwa [hkept, if_neg hne])

/-- A pass asks for the names of the references in order, if no two of them have the same
identity. -/
theorem Passes.mangling (hunique : s.references.Unique)
    (hR : ∀ n ∈ l, s.references.get? n.id = R n.id)
    (honce : (l.filter fun n => (R n.id).isSome).Pairwise fun n m => n.id ≠ m.id)
    (h : Passes target mangle s l s') :
    s'.mangling = ((mangle.answers (calls R l)).run s.mangling).2 := by
  induction l generalizing s with
  | nil =>
    rw [passes_nil_iff] at h
    rw [h]
    rfl
  | cons n l ih =>
    obtain ⟨new, s₁, hmeet, hrest⟩ := passes_cons_iff.mp h
    obtain ⟨hunique₁, hkept, -⟩ := meet_ok hunique hmeet
    rw [forall_mem_cons] at hR
    have hcalls : calls R (n :: l) = calls R [n] ++ calls R l := calls_append [n] l
    rw [hcalls, answers_append]
    rcases meet_cases hmeet with ⟨href, -, rfl⟩ | ⟨name, leaf, href, -, -, -, -, hmangling⟩
    · have hnone : R n.id = none := hR.1 ▸ href
      rw [filter_cons_of_neg (by simp [hnone])] at honce
      have hsingle : calls R [n] = [] := by simp [calls, hnone]
      rw [ih hunique₁ hR.2 honce hrest, hsingle]
      rfl
    · have hsome : R n.id = some name := hR.1 ▸ href
      rw [filter_cons_of_pos (by simp [hsome]), pairwise_cons] at honce
      have hsingle : calls R [n] = [(name, n)] := by simp [calls, hsome]
      have hR₁ : ∀ m ∈ l, s₁.references.get? m.id = R m.id := by
        intro m hm
        have hne : n.id ≠ m.id := by
          intro heq
          refine honce.1 m (mem_filter.mpr ⟨hm, ?_⟩) heq
          rw [← heq, hsome]
          rfl
        rw [hkept, if_neg hne, hR.2 m hm]
      rw [ih hunique₁ hR₁ honce.2 hrest, hsingle, hmangling]
      rfl

/-- A node takes a name only if it has the identity of a leaf, and then none is pending for it. -/
theorem Steady.taken (hs : Steady root R s) (hn : n ∈ root.preorder)
    (hmeet : (Rename.meet target mangle n).run.run s = (.ok (some name), s')) :
    (∃ m ∈ root.preorder, m.kind.IsName ∧ m.id = n.id) ∧ s'.pending.get? n.id = none := by
  rcases meet_cases hmeet with ⟨-, hnew, rfl⟩ | ⟨old, leaf, -, hleaf, hnew, -, hpending, -⟩
  · obtain ⟨m, hm, hid, hkind⟩ := hs.awaits _ (mem_of_get? hnew.symm)
    exact ⟨⟨m, hm, hkind, hid⟩, by simp [get?_erase hs.pending]⟩
  · refine ⟨?_, by rw [hpending, get?_erase (hs.pending.insert _ _), if_pos rfl]⟩
    rcases mem_insert (mem_of_get? hnew.symm) with heq | he
    · obtain ⟨hmem, hkind⟩ := namedLeaf_mem hleaf
      exact ⟨leaf, mem_preorder_trans hn hmem, hkind, (congrArg Prod.fst heq).symm⟩
    · obtain ⟨m, hm, hid, hkind⟩ := hs.awaits _ he
      exact ⟨m, hm, hkind, hid⟩

end States

end Rename

/-! ### The walk is a pass -/

/-- Where a node has the identity of a leaf, all that is below it has that identity, which `R` does
not name. -/
def Node.Passable (root : Node) (R : NodeId → Option String) : Prop :=
  ∀ n ∈ root.preorder, ∀ m ∈ root.preorder, m.kind.IsName → m.id = n.id →
    ∀ c ∈ n.children.flatMap preorder, c.id = n.id ∧ R n.id = none

theorem Node.AllFit.passable (hfit : root.AllFit) (hids : root.Distinct)
    (R : NodeId → Option String) : root.Passable R := by
  intro n hn m hm hkind hid c hc
  obtain rfl := hids.eq_of_id hm hn hid
  obtain ⟨t, ht⟩ := (hfit m hm).eq_leaf hkind
  rw [ht, children_leaf] at hc
  cases hc

section Walk

variable {mangle : Mangle τ} {R : NodeId → Option String} {ancestors : List Node}
  {kind : Option SlotKind} {o : Option Node} {s s' : RenameState τ}

/-- Where a node takes a name, no node below it changes the state. -/
theorem Node.Passable.idle (h : root.Passable R) (hn : n ∈ root.preorder)
    (hs : Steady root R s)
    (hmeet : (meet target mangle n).run.run s = (.ok (some name), s')) :
    Passes target mangle s' (n.children.flatMap preorder) s' := by
  obtain ⟨⟨m, hm, hkind, hid⟩, hnone⟩ := hs.taken hn hmeet
  refine passes_idle (fun c hc => ?_) fun c hc => ?_
  · obtain ⟨hc, hR⟩ := h n hn m hm hkind hid c hc
    rw [hc]
    exact (hs.meet hn hmeet).listed _ hR
  · rw [(h n hn m hm hkind hid c hc).1]
    exact hnone

/-- The walk over a node that is below the root does what a pass over its nodes does. -/
def Node.Walks (n : Node) (target : RenameTarget) (mangle : Mangle τ) (root : Node)
    (R : NodeId → Option String) : Prop :=
  ∀ ancestors key, (key = none → ∀ m ∈ root.preorder, m.kind.IsName → m.id ≠ n.id) →
    VisitM.Agree (Steady root R) (n.walk (visitor target mangle) ancestors key)
      (pass target mangle n.preorder) fun _ _ => True

theorem Node.walkAll_walks {ns : List Node} (h : ∀ n ∈ ns, n.Walks target mangle root R)
    (ancestors : List Node) (slot index : Nat) :
    VisitM.Agree (Steady root R)
      (walkAll (visitor target mangle) ancestors slot index ns)
      (pass target mangle (ns.flatMap preorder)) fun _ _ => True := by
  induction ns generalizing index with
  | nil =>
    rw [walkAll]
    exact .pure trivial
  | cons n ns ih =>
    rw [forall_mem_cons] at h
    rw [walkAll, flatMap_cons, Rename.pass, mapM_append]
    exact (h.1 ancestors _ (by simp)).bind fun _ _ _ =>
      (ih h.2 _).bind fun _ _ _ => .pure trivial

theorem Part.walk_walks {p : Part} (h : ∀ n ∈ p.nodes, n.Walks target mangle root R)
    (ancestors : List Node) (slot : Nat) :
    VisitM.Agree (Steady root R) (p.walk (visitor target mangle) ancestors slot)
      (Rename.pass target mangle (p.nodes.flatMap Node.preorder)) fun _ _ => True := by
  obtain ⟨hnodes, hwalk⟩ | ⟨-, ⟨n, key, hnodes, -, hwalk⟩ | ⟨-, hwalk⟩⟩ :=
    walk_shapes (visitor target mangle) ancestors p slot
  · rw [hwalk, hnodes]
    exact .pure trivial
  · rw [hwalk, hnodes, flatMap_singleton, ← bind_pure (pass target mangle n.preorder)]
    exact (h n (by simp [hnodes]) ancestors (some key) (by simp)).bind fun _ _ _ => .pure trivial
  · rw [hwalk]
    exact walkAll_walks h ancestors slot 0

theorem Part.walkAll_walks {ps : List Part}
    (h : ∀ n ∈ ps.flatMap Part.nodes, n.Walks target mangle root R) (ancestors : List Node)
    (slot : Nat) :
    VisitM.Agree (Steady root R)
      (Part.walkAll (visitor target mangle) ancestors slot ps)
      (Rename.pass target mangle ((ps.flatMap Part.nodes).flatMap Node.preorder))
      fun _ _ => True := by
  induction ps generalizing slot with
  | nil =>
    rw [Part.walkAll]
    exact .pure trivial
  | cons p ps ih =>
    rw [flatMap_cons, forall_mem_append] at h
    rw [Part.walkAll, flatMap_cons, flatMap_append, Rename.pass, mapM_append]
    exact (Part.walk_walks h.1 ancestors slot).bind fun _ _ _ =>
      (ih h.2 _).bind fun _ _ _ => .pure trivial

/-- The walk of a renaming does what a pass over the nodes of the tree does. -/
theorem Node.Passable.walks (h : root.Passable R) (hn : n ∈ root.preorder) :
    n.Walks target mangle root R := by
  induction n using induction with
  | h n ih =>
    intro ancestors key hkey s hs
    have hchildren : ∀ c ∈ n.children, c.Walks target mangle root R :=
      fun c hc => ih c hc (mem_preorder_of_mem_children hn hc)
    obtain ⟨k, i, span, parts⟩ := n
    rw [children_mk] at hchildren
    rw [preorder_eq, children_mk, walk, run_bind, enter_run]
    rcases hmeet : (meet target mangle (.mk k i span parts)).run.run s with ⟨e | new, s₁⟩
    · exact .inl ⟨e, s₁, rfl, by rw [Rename.pass, mapM_cons, run_bind, hmeet]⟩
    have hs₁ := hs.meet hn hmeet
    cases new with
    | some name =>
      obtain ⟨⟨m, hm, hkind, hid⟩, -⟩ := hs.taken hn hmeet
      obtain ⟨xs, hbelow⟩ := h.idle hn hs hmeet
      rw [children_mk] at hbelow
      cases key with
      | none => exact absurd hid (hkey rfl m hm hkind)
      | some key =>
        exact .inr ⟨[([], .replace (withName name (.mk k i span parts)))], _, s₁, rfl,
          pass_cons_ok.mpr ⟨_, _, _, hmeet, hbelow, rfl⟩, trivial, hs₁⟩
    | none =>
      simp only [Except.bind, exchanged, Decision.pass, isSome_none,
        Bool.false_eq_true, if_false, run_bind]
      rcases Part.walkAll_walks hchildren (.mk k i span parts :: ancestors) 0 s₁ hs₁ with
        ⟨e, s₂, hwalk, hpass⟩ | ⟨es, xs, s₂, hwalk, hpass, -, hs₂⟩
      · rw [hwalk]
        refine .inl ⟨e, s₂, rfl, ?_⟩
        rw [Rename.pass] at hpass
        rw [Rename.pass, mapM_cons, run_bind, hmeet]
        simp only [run_bind, hpass]
      · rw [hwalk]
        exact .inr ⟨es ++ [], _, s₂, rfl,
          pass_cons_ok.mpr ⟨_, _, _, hmeet, hpass, rfl⟩, trivial, hs₂⟩

/-- What becomes of a node in a renaming: it takes a name, or the nodes below it are walked over. -/
theorem Rename.becomes_cases
    (h : n.Becomes (visitor target mangle) ancestors kind s o s') :
    ∃ new s₁, (meet target mangle n).run.run s = (.ok new, s₁) ∧
      ((∃ name, new = some name ∧ o = some (n.withName name) ∧ s' = s₁) ∨
        new = none ∧ ∃ qs, o = some (.mk n.kind n.id n.span qs) ∧
          Part.AllBecome (visitor target mangle) (n :: ancestors) s₁ n.parts qs s') := by
  obtain ⟨key, d, s₁, -, henter, hd⟩ := h.cases
  obtain ⟨new, hmeet, rfl⟩ := enter_ok henter
  refine ⟨new, s₁, hmeet, ?_⟩
  rcases hd with ⟨e, hedit, rfl, rfl⟩ | ⟨s₂, qs, left, hedit, hqs, hexit, rfl⟩
  · obtain ⟨name, rfl, rfl⟩ := map_eq_some_iff.mp hedit
    exact .inl ⟨name, rfl, rfl, rfl⟩
  · cases hexit
    rcases hqs with ⟨hskip, -⟩ | ⟨-, hqs⟩
    · cases hskip
    · exact .inr ⟨map_eq_none_iff.mp hedit, qs, rfl, hqs⟩

/-- No node is removed. -/
theorem Rename.becomes_some
    (h : n.Becomes (visitor target mangle) ancestors kind s o s') : ∃ n', o = some n' := by
  obtain ⟨_, _, _, ⟨name, -, rfl, -⟩ | ⟨-, qs, rfl, -⟩⟩ := becomes_cases h <;> exact ⟨_, rfl⟩

/-- A node that is not the root comes out of the walk as a pass over its nodes says. -/
theorem Node.Passable.passes_slot {kind : SlotKind} (h : root.Passable R) (hn : n ∈ root.preorder)
    (hs : Steady root R s)
    (hbecomes : n.Becomes (visitor target mangle) ancestors (some kind) s o s') :
    Passes target mangle s n.preorder s' := by
  obtain ⟨key, es, hkey, hrun, -⟩ := hbecomes
  rcases h.walks hn ancestors key (fun hnone => by rw [hnone] at hkey; cases hkey) s hs with
    ⟨e, s₁, herror, -⟩ | ⟨_, xs, s₁, hwalk, hpass, -⟩
  · cases hrun.symm.trans herror
  · cases hrun.symm.trans hwalk
    exact ⟨xs, hpass⟩

theorem Node.Passable.passes_all {K : SlotKind → Prop} {ns : List Node} {os : List (Option Node)}
    (h : root.Passable R) (hns : ∀ c ∈ ns, c ∈ root.preorder) (hs : Steady root R s)
    (hos : AllBecome (visitor target mangle) ancestors K s ns os s') :
    Passes target mangle s (ns.flatMap preorder) s' ∧ ∀ o ∈ os, o ≠ none := by
  induction hos with
  | nil => exact ⟨.nil, forall_mem_nil _⟩
  | cons _ hc _ ih =>
    rw [forall_mem_cons] at hns
    have hpass := h.passes_slot hns.1 hs hc
    obtain ⟨hrest, hkept⟩ :=
      ih hns.2 (hs.passes (fun m hm => mem_preorder_trans hns.1 hm) hpass)
    obtain ⟨n', rfl⟩ := becomes_some hc
    exact ⟨hpass.append hrest, forall_mem_cons.mpr ⟨by simp, hkept⟩⟩

/-- The walk over a node comes to the same state as a pass over its nodes. -/
theorem Node.Passable.passes (h : root.Passable R) (hn : n ∈ root.preorder)
    (hs : Steady root R s)
    (hbecomes : n.Becomes (visitor target mangle) ancestors kind s o s') :
    Passes target mangle s n.preorder s' := by
  obtain ⟨new, s₁, hmeet, hnew⟩ := becomes_cases hbecomes
  rw [preorder_eq]
  refine passes_cons_iff.mpr ⟨new, s₁, hmeet, ?_⟩
  rcases hnew with ⟨name, rfl, -, rfl⟩ | ⟨rfl, qs, -, hqs⟩
  · exact h.idle hn hs hmeet
  · obtain ⟨os, hos, -⟩ := hqs.nodes
    rw [← n.children_eq] at hos
    exact (h.passes_all (fun c hc => mem_preorder_of_mem_children hn hc)
      (hs.meet hn hmeet) hos).1

/-- What becomes of a node is told by the names that a pass takes, if a node with the same identity
takes the same name. -/
theorem Node.Becomes.relabel (hfit : root.AllFit) (hids : root.Distinct) (hn : n ∈ root.preorder)
    (hs : Steady root R s)
    (hbecomes : n.Becomes (visitor target mangle) ancestors kind s o s')
    (hpass : (pass target mangle n.preorder).run.run s =
      (.ok (n.preorder.map fun m => names.get? m.id), s')) : o = some (n.relabel names) := by
  have hpassable := hfit.passable hids R
  induction n using induction generalizing ancestors kind s s' o with
  | h n ih =>
    rw [preorder_eq, pass_cons_ok] at hpass
    obtain ⟨new, s₁, xs, hmeet, hrest, htaken⟩ := hpass
    rw [map_cons, cons.injEq] at htaken
    obtain ⟨rfl, rfl⟩ := htaken
    have hs₁ := hs.meet hn hmeet
    obtain ⟨new, s₂, hmeet', hcases⟩ := becomes_cases hbecomes
    cases hmeet.symm.trans hmeet'
    rcases hcases with ⟨name, hname, rfl, -⟩ | ⟨hnone, qs, rfl, hqs⟩
    · rw [hname] at hmeet
      obtain ⟨⟨m, hm, hkind, hid⟩, -⟩ := hs.taken hn hmeet
      obtain rfl := hids.eq_of_id hm hn hid
      obtain ⟨t, ht⟩ := (hfit m hm).eq_leaf hkind
      have hchildren := congrArg children ht
      rw [children_leaf] at hchildren
      rw [relabel_of_childless names hchildren hname]
    · -- Along the nodes right below.
      have hall : ∀ {K s s' ns os},
          AllBecome (visitor target mangle) (n :: ancestors) K s ns os s' →
          (∀ c ∈ ns, c ∈ n.children) → Steady root R s → ∀ s₂,
          (pass target mangle (ns.flatMap preorder)).run.run s =
            (.ok ((ns.flatMap preorder).map fun m => names.get? m.id), s₂) →
          os = ns.map fun c => some (c.relabel names) := by
        intro K s s' ns os hos
        induction hos with
        | nil => exact fun _ _ _ _ => rfl
        | cons _ hc _ ihns =>
          intro hns hs s₂ hpass
          rw [forall_mem_cons] at hns
          have hmem := mem_preorder_of_mem_children hn hns.1
          obtain ⟨ys, hys⟩ := hpassable.passes hmem hs hc
          rw [flatMap_cons] at hpass
          obtain ⟨s₃, hfirst, hrest⟩ := pass_append_map hpass
          cases hys.symm.trans hfirst
          have hs₃ := hs.passes (fun m hm => mem_preorder_trans hmem hm) ⟨_, hfirst⟩
          rw [ih _ hns.1 hmem hs hc hfirst, ihns hns.2 hs₃ s₂ hrest, map_cons]
      obtain ⟨os, hos, -, hmap⟩ := hqs.nodes
      rw [← n.children_eq] at hos hmap
      have hqs := hmap _ (hall hos (fun _ hc => hc) hs₁ _ hrest)
        ((hfit.below hn).inStep _ n.mem_preorder_self)
      rw [hqs, relabel_of_none names hnone]
      cases n
      rfl

end Walk

/-! ### What a pass takes -/

namespace Rename

variable {mangle : Mangle τ} {R : NodeId → Option String} {s s' : RenameState τ}
  {xs : List (Option String)}

/-- Among the nodes each reference has a leaf, which does not come before the reference and is the
leaf of no other. -/
structure Owned (target : RenameTarget) (R : NodeId → Option String) (l : List Node) : Prop where
  leaf : ∀ l₁ n l₂, l = l₁ ++ n :: l₂ → R n.id ≠ none →
    ∃ leaf, n.namedLeaf target = .ok leaf ∧ leaf.id ∈ (n :: l₂).map Node.id
  unique : ∀ n ∈ l, ∀ n' ∈ l, R n.id ≠ none → R n'.id ≠ none → ∀ leaf leaf',
    n.namedLeaf target = .ok leaf → n'.namedLeaf target = .ok leaf' → leaf.id = leaf'.id → n = n'

theorem Owned.tail (h : Owned target R (n :: l)) : Owned target R l where
  leaf l₁ m l₂ hl := h.leaf (n :: l₁) m l₂ (by rw [hl, cons_append])
  unique m hm m' hm' := h.unique m (mem_cons_of_mem n hm) m' (mem_cons_of_mem n hm')

/-- New names are for nodes in the list. -/
theorem Owned.mem_ids (h : Owned target R l) {answers : List String}
    (he : e ∈ newNames target (calls R l) answers) : e.1 ∈ l.map Node.id := by
  obtain ⟨n, hn, href, leaf, hleaf, heq⟩ := mem_newNames he
  obtain ⟨l₁, l₂, rfl⟩ := append_of_mem hn
  obtain ⟨leaf', hleaf', hmem⟩ := h.leaf l₁ n l₂ rfl href
  obtain rfl : leaf' = leaf := Except.ok.inj (hleaf'.symm.trans hleaf)
  rw [map_append, ← heq]
  exact mem_append_right _ hmem

/-- The leaf of a reference gets its new name from that reference only. -/
theorem Owned.newNames_eq_none (h : Owned target R (n :: l)) (hnodup : n.id ∉ l.map Node.id)
    (href : R n.id ≠ none) {leaf : Node} (hleaf : n.namedLeaf target = .ok leaf)
    (answers : List String) : (newNames target (calls R l) answers).get? leaf.id = none := by
  rw [get?_eq_none_iff, List.mem_map]
  rintro ⟨e, he, heq⟩
  obtain ⟨m, hm, href', leaf', hleaf', heq'⟩ := mem_newNames he
  obtain rfl := h.unique n mem_cons_self m (mem_cons_of_mem _ hm) href href' leaf leaf' hleaf
    hleaf' (heq.symm.trans heq'.symm)
  exact hnodup (mem_map_of_mem hm)

variable (mangle) in
/-- A pass over nodes whose references have leaves comes to its end. -/
theorem exists_pass (s : RenameState τ) (hrefs : s.references.Unique)
    (hnodup : (l.map Node.id).Nodup)
    (h : ∀ n ∈ l, s.references.get? n.id ≠ none → ∃ leaf, n.namedLeaf target = .ok leaf) :
    ∃ xs s', (pass target mangle l).run.run s = (.ok xs, s') := by
  induction l generalizing s with
  | nil => exact ⟨[], s, rfl⟩
  | cons n l ih =>
    rw [map_cons, nodup_cons] at hnodup
    rw [forall_mem_cons] at h
    obtain ⟨new, s₁, hmeet⟩ := exists_meet mangle h.1
    obtain ⟨hrefs₁, hkept, -⟩ := meet_ok hrefs hmeet
    obtain ⟨xs, s₂, hrest⟩ := ih s₁ hrefs₁ hnodup.2 fun m hm href => by
      have hne : n.id ≠ m.id := fun heq => hnodup.1 (heq ▸ mem_map_of_mem hm)
      rw [hkept, if_neg hne] at href
      exact h.2 m hm href
    exact ⟨_, s₂, pass_cons_ok.mpr ⟨_, _, _, hmeet, hrest, rfl⟩⟩

/-- The names that a pass takes if each reference has a leaf of its own: those that were pending,
and those that it asks for. -/
theorem pass_names (hrefs : s.references.Unique) (hpending : s.pending.Unique)
    (hnodup : (l.map Node.id).Nodup) (hR : ∀ n ∈ l, s.references.get? n.id = R n.id)
    (h : Owned target R l) (hpass : (pass target mangle l).run.run s = (.ok xs, s')) :
    xs = l.map fun n => ((newNames target (calls R l)
      ((mangle.answers (calls R l)).run s.mangling).1).get? n.id).or (s.pending.get? n.id) := by
  induction l generalizing s xs with
  | nil =>
    cases hpass
    rfl
  | cons n l ih =>
    obtain ⟨new, s₁, rest, hmeet, hrest, rfl⟩ := pass_cons_ok.mp hpass
    rw [map_cons, nodup_cons] at hnodup
    rw [forall_mem_cons] at hR
    obtain ⟨hrefs₁, hkept, -⟩ := meet_ok hrefs hmeet
    have hne : ∀ m ∈ l, n.id ≠ m.id := fun m hm heq => hnodup.1 (heq ▸ mem_map_of_mem hm)
    have hR₁ : ∀ m ∈ l, s₁.references.get? m.id = R m.id := by
      intro m hm
      rw [hkept, if_neg (hne m hm), hR.2 m hm]
    -- None of the names behind is for this node.
    have hown : ∀ answers, (newNames target (calls R l) answers).get? n.id = none := by
      intro answers
      rw [get?_eq_none_iff, List.mem_map]
      rintro ⟨e, he, heq⟩
      exact hnodup.1 (heq ▸ h.tail.mem_ids he)
    rcases meet_cases hmeet with ⟨hnone, rfl, rfl⟩ |
      ⟨name, leaf, hsome, hleaf, rfl, -, hpending', hmangling⟩
    · have hcalls : calls R (n :: l) = calls R l := by simp [calls, ← hR.1, hnone]
      rw [hcalls, map_cons, hown, none_or,
        ih hrefs₁ (hpending.erase _) hnodup.2 hR₁ h.tail hrest]
      congr 1
      refine map_congr_left fun m hm => ?_
      rw [get?_erase hpending, if_neg (hne m hm)]
    · have hcalls : calls R (n :: l) = (name, n) :: calls R l := by simp [calls, ← hR.1, hsome]
      have hnames : newNames target ((name, n) :: calls R l)
            ((mangle.answers ((name, n) :: calls R l)).run s.mangling).1 =
          (leaf.id, ((mangle name n).run s.mangling).1) :: newNames target (calls R l)
            ((mangle.answers (calls R l)).run ((mangle name n).run s.mangling).2).1 := by
        have hanswers := answers_append mangle [(name, n)] (calls R l) s.mangling
        have hone : (mangle.answers [(name, n)]).run s.mangling =
            ([((mangle name n).run s.mangling).1], ((mangle name n).run s.mangling).2) := rfl
        rw [singleton_append, hone] at hanswers
        rw [hanswers]
        simp [newNames, hleaf, Except.toOption]
      have hunique := hpending.insert leaf.id ((mangle name n).run s.mangling).1
      have hfree := h.newNames_eq_none hnodup.1 (by simp [← hR.1, hsome]) hleaf
      rw [ih hrefs₁ (hpending' ▸ hunique.erase _) hnodup.2 hR₁ h.tail hrest, hcalls, hnames,
        hmangling, hpending', map_cons]
      congr 1
      · rw [get?_insert, Registry.get?, hown]
        split <;> simp
      · refine map_congr_left fun m hm => ?_
        rw [get?_erase hunique, if_neg (hne m hm), get?_insert, Registry.get?]
        split
        · rename_i heq
          rw [← heq, hfree, none_or, some_or]
        · rfl

end Rename

/-! ### What a renaming does -/

theorem referenceNames_unique (entries : List (String × List NodeId)) :
    (referenceNames entries).Unique := by
  refine List.foldlRecOn _ _ Registry.unique_nil fun r hr e _ => ?_
  exact hr.insert e.1 e.2

/-- The name under which a registry of a scope lists a node. -/
def Scope.nameOf? (s : Scope) (target : RenameTarget) (i : NodeId) : Option String :=
  (referenceNames (s.references target)).get? i

/-- The references in a tree that a registry of a scope lists, in pre-order and each with its
name. -/
def Node.referencesTo (root : Node) (scope : Scope) (target : RenameTarget) :
    List (String × Node) :=
  calls (scope.nameOf? target) root.preorder

/-- The new names that the leaves of the references get, and the state of what gives names after
that. -/
def Node.renamed {τ : Type} (root : Node) (scope : Scope) (target : RenameTarget)
    (mangle : Mangle τ) (mangling : τ) : Registry NodeId String × τ :=
  let calls := root.referencesTo scope target
  let (answers, mangling) := (mangle.answers calls).run mangling
  (newNames target calls answers, mangling)

/-- The references in a tree that a registry lists have their leaves, each its own. -/
structure Node.OwnsLeaves (root : Node) (scope : Scope) (target : RenameTarget) : Prop where
  leaf : ∀ n ∈ root.preorder, scope.nameOf? target n.id ≠ none →
    ∃ leaf, n.namedLeaf target = .ok leaf
  unique : ∀ n ∈ root.preorder, ∀ n' ∈ root.preorder, scope.nameOf? target n.id ≠ none →
    scope.nameOf? target n'.id ≠ none → ∀ leaf leaf', n.namedLeaf target = .ok leaf →
    n'.namedLeaf target = .ok leaf' → leaf.id = leaf'.id → n = n'

theorem Node.OwnsLeaves.owned (h : root.OwnsLeaves scope target) :
    Owned target (scope.nameOf? target) root.preorder where
  leaf l₁ n l₂ heq href := by
    have hn : n ∈ root.preorder := heq ▸ mem_append_right _ mem_cons_self
    obtain ⟨leaf, hleaf⟩ := h.leaf n hn href
    have hmem := mem_of_preorder_eq heq (namedLeaf_mem hleaf).1
    exact ⟨leaf, hleaf, mem_map_of_mem hmem⟩
  unique := h.unique

/-- What a renaming has not reached when it is over: any of it may be given as missing. -/
def Node.leftOver {τ : Type} (root : Node) (scope : Scope) (target : RenameTarget)
    (mangle : Mangle τ) (mangling : τ) : Registry NodeId String :=
  (root.visit (visitor target mangle) (.start scope target mangling)).state.leftOver

/-- A renaming begins in a state of a renaming. -/
theorem Rename.steady_start (root : Node) (scope : Scope) (target : RenameTarget) (mangling : τ) :
    Steady root (scope.nameOf? target) (.start scope target mangling) :=
  ⟨referenceNames_unique _, unique_nil, fun _ hi => hi, forall_mem_nil _⟩

variable (target) in
/-- A renaming is a pass over the nodes of a tree, and then relabelling with the names that were
taken. -/
theorem Node.rename_cases (hfit : root.AllFit) (hids : root.Distinct) (hroot : ¬root.kind.IsName)
    (scope : Scope) (mangle : Mangle τ) (mangling : τ) :
    (∃ e s', (pass target mangle root.preorder).run.run
        (.start scope target mangling) = (.error e, s') ∧
      (root.rename scope target mangle mangling).error = some e) ∨
    ∃ xs s', (pass target mangle root.preorder).run.run
        (.start scope target mangling) = (.ok xs, s') ∧
      (∀ names : Registry NodeId String, xs = root.preorder.map (fun m => names.get? m.id) →
        (root.rename scope target mangle mangling).root = root.relabel names) ∧
      (root.rename scope target mangle mangling).error = missing? s' ∧
      (root.rename scope target mangle mangling).mangling = s'.mangling ∧
      root.leftOver scope target mangle mangling = s'.leftOver := by
  have hs := steady_start root scope target mangling
  rcases (hfit.passable hids _).walks root.mem_preorder_self [] none
    (fun _ m hm hkind hid => hroot (hids.eq_of_id hm root.mem_preorder_self hid ▸ hkind)) _ hs with
    ⟨e, s', hwalk, hpass⟩ | ⟨es, xs, s', hwalk, hpass, -⟩
  · exact .inl ⟨e, s', hpass, by simp only [rename, visit, hwalk]⟩
  · right
    obtain ⟨hok, hstate⟩ := visit_of_walk hwalk
    rcases visit_cases (visitor_keepsRoot target mangle) root (.start scope target mangling) with
      ⟨e, he⟩ | ⟨tree, hbecomes, hresult⟩
    · cases hok.symm.trans he
    · refine ⟨xs, s', hpass, fun names hxs => ?_, by simp only [rename, hresult, hstate],
        by simp only [rename, hresult, hstate], by rw [leftOver, hstate]⟩
      rw [hstate] at hbecomes
      simp only [rename, hresult]
      exact some.inj
        (hbecomes.relabel hfit hids root.mem_preorder_self hs (hxs ▸ hpass))

/-- What a renaming comes to if the references in the tree have leaves of their own. -/
structure Node.RenamesReached {τ : Type} (root : Node) (scope : Scope) (target : RenameTarget)
    (mangle : Mangle τ) (mangling : τ) : Prop where
  /-- The tree is relabelled with the answers for the references. -/
  root_eq : (root.rename scope target mangle mangling).root =
    root.relabel (root.renamed scope target mangle mangling).1
  /-- The answers are asked for in pre-order. -/
  mangling_eq : (root.rename scope target mangle mangling).mangling =
    (root.renamed scope target mangle mangling).2
  /-- The first name that is left over is given as missing. -/
  error_eq : (root.rename scope target mangle mangling).error =
    (root.leftOver scope target mangle mangling).head?.map fun e => .missingReference e.2
  /-- What is listed with nodes that are not in the tree is left over. -/
  mem_leftOver : ∀ i name, (i, name) ∈ root.leftOver scope target mangle mangling ↔
    scope.nameOf? target i = some name ∧ i ∉ root.ids

/-- **Renaming reaches the references in the tree**, if they have leaves of their own. -/
theorem Node.OwnsLeaves.renamesReached (hfit : root.AllFit) (hids : root.Distinct)
    (hroot : ¬root.kind.IsName) (h : root.OwnsLeaves scope target) (mangle : Mangle τ)
    (mangling : τ) : root.RenamesReached scope target mangle mangling := by
  rcases Node.rename_cases target hfit hids hroot scope mangle mangling with
    ⟨e, s, hfail, -⟩ | ⟨xs, s', hpass, htree, herror, hstate, hleft⟩
  · obtain ⟨xs, s', hpass⟩ := exists_pass mangle
      (.start scope target mangling) (referenceNames_unique _) hids h.leaf
    cases hfail.symm.trans hpass
  have hs := steady_start root scope target mangling
  have hpasses : Passes target mangle _ root.preorder s' := ⟨xs, hpass⟩
  have hpending : s'.pending = [] := by
    refine Registry.eq_nil_of_get?_eq_none fun i => ?_
    rw [hpasses.pending hs.pending (fun l₁ n l₂ heq leaf hleaf =>
      mem_map_of_mem (mem_of_preorder_eq heq (namedLeaf_mem hleaf).1)) i]
    split <;> rfl
  have hxs := pass_names hs.references hs.pending hids (fun _ _ => rfl) h.owned hpass
  have honce := (pairwise_map.mp hids).filter fun n => (scope.nameOf? target n.id).isSome
  rw [RenameState.leftOver, hpending, append_nil] at hleft
  refine ⟨htree _ (hxs.trans (map_congr_left fun n _ => or_none)),
    hstate.trans (hpasses.mangling hs.references (fun _ _ => rfl) honce), ?_, fun i name => ?_⟩
  · rw [herror, missing?, RenameState.leftOver, hpending, append_nil, hleft]
  · have hget : s'.references.get? i = if i ∈ root.ids then none else scope.nameOf? target i :=
      hpasses.references hs.references i
    have hunique := (hs.passes (fun _ hn => hn) hpasses).references
    rw [hleft, show (i, name) ∈ s'.references ↔ _ from
      ⟨Registry.get?_of_mem hunique, Registry.mem_of_get?⟩, hget]
    split <;> simp_all

/-- A renaming succeeds only if all that is listed is in the tree and has leaves. -/
theorem Node.found_of_rename (hfit : root.AllFit) (hids : root.Distinct) (hroot : ¬root.kind.IsName)
    {mangle : Mangle τ} {mangling : τ} (h : (root.rename scope target mangle mangling).error = none)
    {i : NodeId} (hname : scope.nameOf? target i = some name) :
    ∃ n ∈ root.preorder, n.id = i ∧ ∃ leaf, n.namedLeaf target = .ok leaf := by
  rcases rename_cases target hfit hids hroot scope mangle mangling with
    ⟨e, s, -, herror⟩ | ⟨xs, s, hpass, -, herror, -, -⟩
  · rw [h] at herror
    cases herror
  · have hpasses : Passes target mangle _ root.preorder s := ⟨xs, hpass⟩
    have hdone : s.references = [] := by
      rw [h, missing?, eq_comm, map_eq_none_iff, head?_eq_none_iff,
        RenameState.leftOver, append_eq_nil_iff] at herror
      exact herror.1
    by_cases hi : i ∈ root.ids
    · obtain ⟨n, hn, rfl⟩ := mem_ids.mp hi
      have href : Registry.get? n.id (referenceNames (scope.references target)) ≠ none := by
        rw [← Scope.nameOf?, hname]
        simp
      exact ⟨n, hn, rfl, hpasses.leaf (referenceNames_unique _) hids hn href⟩
    · have hnone := (hpasses.references (referenceNames_unique _) i).trans (if_neg hi)
      rw [hdone] at hnone
      rw [Scope.nameOf?] at hname
      cases hnone.trans hname

end ShaderSource
