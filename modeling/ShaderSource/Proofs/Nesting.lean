import ShaderSource.Proofs.Consistency
import ShaderSource.Proofs.Enclosure

/-!
# Scopes are left again

Scopes that are opened at a node are left before binding is done with the node. So binding comes
back to the scope it was in, and whatever stands right below the root is bound in the outermost
scope. There lie both rounds over the dimensions of members of a block without an instance, if the
block stands in a declaration of its own right below the root.

## Main results

* `Occurrence.Nested.returns`: binding ends in the scope in which it began.
* `Program.BoundAs.one_scope`: if all such blocks are there, then an identifier that is gone through
  twice is registered in one scope.
-/

namespace ShaderSource

open List Names Node ScopeTree

variable {i : NodeId} {before after : List Occurrence} {o : Occurrence}

namespace Names

variable {b : Names} {os os' : List Occurrence}

/-- Scopes stay, with the scopes around them. -/
theorem step_parent {i : ScopeId} (hi : i < b.scopes.size) (o : Occurrence) :
    i < (b.step o).scopes.size ∧
      ((b.step o).scopes.get? i).map Scope.parent = (b.scopes.get? i).map Scope.parent := by
  obtain ⟨s, hs⟩ := exists_get?_of_lt hi
  by_cases hflat : o.isFlat = true
  · obtain ⟨s', hs', hextends⟩ := (step_flat (b := b) hflat).2.scope i s hs
    exact ⟨lt_size_of_get? hs', by simp [hs, hs', hextends.parent]⟩
  · cases o with
    | enter name span =>
      have hs' : (b.step (.enter name span)).scopes.get? i = some s :=
        (getElem?_append_left hi).trans hs
      exact ⟨lt_size_of_get? hs', by rw [hs, hs']⟩
    | leave => exact ⟨hi, rfl⟩
    | declareVariable | useVariable | declareType | useType | declareFunction | defineFunction
    | call | malformed => exact absurd rfl hflat

theorem foldl_parent {i : ScopeId} (hi : i < b.scopes.size) (os : List Occurrence) :
    ((os.foldl step b).scopes.get? i).map Scope.parent =
      (b.scopes.get? i).map Scope.parent := by
  induction os generalizing b with
  | nil => rfl
  | cons o os ih =>
    obtain ⟨hlt, hparent⟩ := step_parent hi o
    rw [foldl_cons, ih hlt, hparent]

theorem foldl_flat_current (h : ∀ o ∈ os, o.isFlat = true) :
    (os.foldl step b).current = b.current := by
  induction os generalizing b with
  | nil => rfl
  | cons o os ih =>
    rw [forall_mem_cons] at h
    rw [foldl_cons, ih h.2, (step_flat h.1).1]

/-- A run ends in the scope in which it begins. -/
def Returns (os : List Occurrence) : Prop :=
  ∀ b : Names, b.Valid → (os.foldl step b).current = b.current

/-- A scope that was opened in a run is in the scope in which the run began. -/
theorem inner_parent (hb : b.Valid) (os : List Occurrence) (name : String) (span : Option Span) :
    ∃ s, (os.foldl step (b.step (.enter name span))).scopes.get?
        (b.step (.enter name span)).current = some s ∧ s.parent = some b.current := by
  have hnew : ((b.step (.enter name span)).scopes.get? b.scopes.size).map Scope.parent =
      some (some b.current) := by
    simp [step, push, get?, size, Scope.fresh]
  exact Option.map_eq_some_iff.mp ((foldl_parent (hb.step _).current os).trans hnew)

end Names

/-- Scopes that are opened are left again. -/
theorem Occurrence.Nested.returns {above : List Node} {os : List Occurrence} {ls : List Lineage}
    {ids : List NodeId} (h : Occurrence.Nested above os ls ids) : Names.Returns os := by
  induction h with
  | flat h => exact fun _ _ => Names.foldl_flat_current h
  | append _ _ _ _ ih ih' =>
    intro b hb
    rw [foldl_append, ih' _ (hb.foldl _), ih b hb]
  | @scope _ n os _ _ _ ih =>
    intro b hb
    obtain ⟨s, hs, hs'⟩ := Names.inner_parent hb os n.scopeName n.span
    rw [foldl_cons, foldl_append]
    change (((os.foldl step (b.step (.enter n.scopeName n.span))).scopes.get?
      (os.foldl step (b.step (.enter n.scopeName n.span))).current).bind Scope.parent).getD _ = _
    rw [ih _ (hb.step _), hs, Option.bind_some, hs']
    rfl
  | within _ _ ih | mono _ _ ih => exact ih

/-! ### Blocks right below the root -/

/-- Blocks without instances stand in declarations right below the root. -/
def Node.BlocksOnTop (root : Node) : Prop :=
  ∀ block ∈ root.preorder, block.isOpenBlock = true → ∃ d ∈ root.children, block ∈ d.children

/-- Where an occurrence is in a run over a list. -/
theorem exists_split_of_flatMap {α : Type} {l : List α} {f : α → List Occurrence}
    (h : l.flatMap f = before ++ o :: after) :
    ∃ l₁ a l₂ inner rest, l = l₁ ++ a :: l₂ ∧ f a = inner ++ o :: rest ∧
      before = l₁.flatMap f ++ inner := by
  induction l generalizing before with
  | nil => simp at h
  | cons a l ih =>
    rw [flatMap_cons] at h
    rcases append_eq_append_iff.mp h with ⟨middle, rfl, hl⟩ | ⟨middle, ha, hrest⟩
    · obtain ⟨l₁, a', l₂, inner, rest, rfl, hf, rfl⟩ := ih hl
      exact ⟨a :: l₁, a', l₂, inner, rest, rfl, hf, by simp⟩
    · cases middle with
      | nil =>
        obtain ⟨l₁, a', l₂, inner, rest, rfl, hf, hinner⟩ :=
          ih (show l.flatMap f = [] ++ o :: after from hrest.symm)
        refine ⟨a :: l₁, a', l₂, inner, rest, rfl, hf, ?_⟩
        rw [flatMap_cons, append_assoc, ← hinner, ha, append_nil,
          append_nil]
      | cons o' middle =>
        obtain ⟨rfl, -⟩ := cons.inj hrest
        exact ⟨[], a, l, before, middle, rfl, ha, rfl⟩

/-- Blocks stand in declarations. -/
theorem Kind.holds_interfaceBlock (k : Kind) :
    ∀ i ∈ k.nodeFields, .interfaceBlock ∈ (k.form[i]?.map Field.kinds).getD [] →
      k = .declarationStatement ∧ i = 0 := by
  cases k <;> decide

section Blocks

variable {n : Node} {role : Role}

theorem Node.AllFit.occurrences_program (h : n.AllFit) (hkind : n.kind = .program) :
    n.occurrences .plain = n.children.flatMap (occurrences .plain) := by
  rw [h.occurrences_eq, plan_of_kind (by simp [hkind]) (by simp [hkind]),
    flatMap_children, h.fits.length_parts, hkind]
  simp [Kind.plan, Kind.form, Node.perform, along, range_succ]

/-- A declaration opens no scope, that of a function apart. -/
theorem Node.AllFit.flat_declaration (h : n.AllFit) (hkind : n.kind = .declarationStatement)
    {d : Node} (hd : d ∈ n.field 0) (hscopes : d.kind.holdsScopes = false)
    (ho : o ∈ n.occurrences role) : o.isFlat = true := by
  obtain ⟨c, hc⟩ : ∃ c, n.field 0 = [c] := h.fits.exists_child (by rw [hkind]; rfl)
  obtain rfl : d = c := mem_singleton.mp (hc ▸ hd)
  have htoken : n.field 1 = [] := by
    refine eq_nil_iff_forall_not_mem.mpr fun m hm => ?_
    have hform := h.fits.kind_mem_field hm
    rw [hkind] at hform
    cases hform
  rw [h.occurrences_eq, plan_of_kind (by simp [hkind]) (by simp [hkind]), hkind] at ho
  simp [Kind.plan, Kind.form, Node.perform, along, range_succ, hc, htoken] at ho
  exact (h.child (mem_children_iff.mpr ⟨0, hd⟩)).flat hscopes ho

/-- The declaration of a block opens no scope. -/
theorem Node.AllFit.flat_block (h : n.AllFit) {block : Node} (hblock : block ∈ n.children)
    (hopen : block.isOpenBlock = true) (ho : o ∈ n.occurrences role) : o.isFlat = true := by
  have hblockKind := (isOpenBlock_iff.mp hopen).1
  obtain ⟨i, hi, hfield⟩ := h.fits.exists_field hblock
  have hform := h.fits.kind_mem_field hfield
  rw [hblockKind] at hform
  obtain ⟨hkind, rfl⟩ := n.kind.holds_interfaceBlock i hi hform
  exact h.flat_declaration hkind hfield (by rw [hblockKind]; rfl) ho

end Blocks

/-! ### Where names are registered -/

theorem ScopeTree.Valid.resolve_zero {t : ScopeTree} (h : t.Valid) (c : NameClass) (name : String) :
    t.resolve c 0 name = 0 := by
  have hroot := get?_zero h.nonempty
  have hparent : t.root.parent = none := by
    cases hparent : t.root.parent with
    | none => rfl
    | some p => exact absurd (h.parents hroot hparent) (Nat.not_lt_zero p)
  obtain ⟨n, hn⟩ := Nat.exists_eq_succ_of_ne_zero (Nat.ne_of_gt h.nonempty)
  unfold resolve ScopeTree.lookup ancestors
  rw [hn, chain, hroot]
  dsimp only
  rw [hparent]
  cases hname : (t.root.entries c).get? name with
  | none => simp [hname]
  | some e => simpa [hname] using h.ids hroot

namespace Names

variable {b : Names} {o : Occurrence} {j j' : ScopeId} {x x' : String} {i : NodeId}

/-- What a variable adds. -/
theorem added_vars (h : (j, x, i) ∈ b.added .vars o) :
    ∃ site, site.id = i ∧ Vocabulary.isBuiltinVariable x = false ∧
      (o = .declareVariable x site ∧ j = b.current ∨
        o = .useVariable x site ∧ j = b.scopes.resolve .var b.current x) := by
  cases o with
  | declareVariable name site | useVariable name site =>
    simp only [added, true_and, Bool.not_eq_true] at h
    split at h
    · rename_i hname
      obtain ⟨rfl, rfl, rfl⟩ : j = _ ∧ x = name ∧ i = site.id := by simpa using h
      exact ⟨site, rfl, hname, by simp⟩
    · cases h
  | _ => simp [added] at h

theorem mem_added_declare (hx : Vocabulary.isBuiltinVariable x = false) (site : Site) :
    (b.current, x, site.id) ∈ b.added .vars (.declareVariable x site) := by
  simp [added, hx]

theorem mem_added_use (hx : Vocabulary.isBuiltinVariable x = false) (site : Site) :
    (b.scopes.resolve .var b.current x, x, site.id) ∈ b.added .vars (.useVariable x site) := by
  simp [added, hx]

theorem mentions_of_added (h : (j, x, i) ∈ b.added .vars o) : i ∈ o.mentions .vars := by
  obtain ⟨site, rfl, -, ⟨rfl, -⟩ | ⟨rfl, -⟩⟩ := added_vars h <;> exact mem_singleton_self _

theorem added_unique (h : (j, x, i) ∈ b.added .vars o) (h' : (j', x', i) ∈ b.added .vars o) :
    j = j' := by
  obtain ⟨site, -, -, ⟨rfl, rfl⟩ | ⟨rfl, rfl⟩⟩ := added_vars h
  · obtain ⟨_, -, -, ⟨-, rfl⟩ | ⟨heq, -⟩⟩ := added_vars h'
    · rfl
    · cases heq
  · obtain ⟨_, -, -, ⟨heq, -⟩ | ⟨heq, rfl⟩⟩ := added_vars h'
    · cases heq
    · cases heq
      rfl

/-- In the outermost scope everything is registered there. -/
theorem Valid.scope_of_added (hb : b.Valid) (hcurrent : b.current = 0)
    (h : (j, x, i) ∈ b.added .vars o) : j = 0 := by
  obtain ⟨_, -, -, ⟨-, rfl⟩ | ⟨-, rfl⟩⟩ := added_vars h
  · exact hcurrent
  · rw [hcurrent, hb.scopes.resolve_zero]

end Names

/-- A run mentions what is mentioned once at one place only. -/
theorem split_unique {target : RenameTarget} {os before' after' : List Occurrence} {o' : Occurrence}
    (hcount : (os.flatMap (Occurrence.mentions target)).count i ≤ 1)
    (hos : os = before ++ o :: after) (hos' : os = before' ++ o' :: after')
    (hi : i ∈ o.mentions target) (hi' : i ∈ o'.mentions target) : before = before' ∧ o = o' := by
  have hpos := count_pos_iff.mpr hi
  have hpos' := count_pos_iff.mpr hi'
  rcases append_eq_append_iff.mp (hos.symm.trans hos') with
    ⟨_ | ⟨_, middle⟩, rfl, heq⟩ | ⟨_ | ⟨_, middle⟩, rfl, heq⟩
  · exact ⟨by simp, (cons.inj heq).1⟩
  · obtain ⟨rfl, -⟩ := cons.inj heq
    rw [hos'] at hcount
    simp only [flatMap_append, flatMap_cons, count_append] at hcount
    omega
  · exact ⟨by simp, (cons.inj heq).1.symm⟩
  · obtain ⟨rfl, -⟩ := cons.inj heq
    rw [hos] at hcount
    simp only [flatMap_append, flatMap_cons, count_append] at hcount
    omega

namespace Program.BoundAs

variable {p : Program} {tree : Node} {last : NodeId} {b : Names} (h : p.BoundAs tree last b)

include h

theorem blocksOnTop (hblocks : p.root.BlocksOnTop) : tree.BlocksOnTop := by
  intro block hblock hopen
  have hkind := (isOpenBlock_iff.mp hopen).1
  have hmem := exchangeCallees_mem b.callees hblock (by simp [hkind]) (by simp [hkind])
  rw [← h.root] at hmem
  obtain ⟨d', hd', hchild⟩ := hblocks _ hmem (by rwa [isOpenBlock_exchangeCallees])
  rw [h.root, exchangeCallees_of_kind b.callees (by simp [h.kind]),
    children_mapChildren] at hd'
  obtain ⟨d, hd, rfl⟩ := mem_map.mp hd'
  refine ⟨d, hd, ?_⟩
  rcases mem_children_exchangeCallees b.callees (h.fit.child hd) hchild with
    ⟨i, c, hc, heq, -⟩ | ⟨-, -, fresh, span, t, -, heq⟩
  · have hid := congrArg Node.id heq
    rw [id_exchangeCallees, id_exchangeCallees] at hid
    have hc' := mem_children_iff.mpr ⟨i, hc⟩
    rwa [Distinct.eq_of_id h.ids.nodup hblock (mem_preorder_of_mem_child hd
      (child_mem_preorder hc')) hid]
  · -- A new callee is no block.
    have hkind' := congrArg kind heq
    rw [kind_exchangeCallees, hkind] at hkind'
    cases hkind'

/-- What is right below the root is bound in the outermost scope, where no scope is open in it. -/
theorem current_of_flat {l₁ l₂ : List Node} {c : Node} (hchildren : tree.children = l₁ ++ c :: l₂)
    {inner : List Occurrence} (hflat : ∀ o ∈ inner, o.isFlat = true) :
    ((l₁.flatMap (occurrences .plain) ++ inner).foldl step
      (Binding.initial tree.span last).names).current = 0 := by
  have hsub : (l₁.flatMap Node.ids).Sublist tree.ids := by
    rw [ids_eq, hchildren, flatMap_append]
    exact (sublist_append_left _ _).cons _
  have hnested : Occurrence.Nested [tree] (l₁.flatMap (occurrences .plain))
      (l₁.flatMap (openingsBelow [tree])) (l₁.flatMap Node.ids) := by
    refine .flatMap (fun m hm => ?_) (hsub.nodup h.ids.nodup)
    have hm : m ∈ tree.children := by simp [hchildren, hm]
    exact (h.fit.child hm).nested (Distinct.below h.ids.nodup (child_mem_preorder hm))
      (by simp [Kind.hands, h.kind, Kind.hasBody])
  rw [foldl_append, Names.foldl_flat_current hflat, hnested.returns _ (valid_initial _ _)]
  rfl

/-- What is gone through twice is bound in the outermost scope. -/
theorem current_of_revisited (hblocks : tree.BlocksOnTop) (hi : i ∈ tree.revisited)
    (hos : tree.occurrences .plain = before ++ o :: after) (ho : i ∈ o.mentions .vars) :
    (before.foldl step (Binding.initial tree.span last).names).current = 0 := by
  obtain ⟨block, hblock, hopen, hdimension⟩ := Node.mem_revisited.mp hi
  obtain ⟨d, hd, hchild⟩ := hblocks block hblock hopen
  rw [h.fit.occurrences_program h.kind] at hos
  obtain ⟨l₁, c, l₂, inner, rest, hchildren, hc, rfl⟩ := exists_split_of_flatMap hos
  -- The occurrence is in the declaration of the block.
  have hmem : c ∈ tree.children := by simp [hchildren]
  obtain rfl : c = d := by
    have hoc : o ∈ c.occurrences .plain := by simp [hc]
    have hic : i ∈ c.ids := (occurrence_about (h.fit.child hmem) hoc).mentions_mem ho
    have hid : i ∈ d.ids := by
      obtain ⟨x, hx, hix⟩ := mem_flatMap.mp hdimension
      obtain ⟨m, hm, rfl⟩ := mem_ids.mp hix
      exact id_mem_ids (mem_preorder_trans (mem_preorder_of_mem_child hchild
        (mem_along hx)) hm)
    obtain ⟨m, hm, rfl⟩ := mem_ids.mp hic
    obtain ⟨m', hm', hid'⟩ := mem_ids.mp hid
    exact Distinct.child_unique h.ids.nodup hmem hd hm hm' hid'.symm
  refine h.current_of_flat hchildren fun o' ho' => ?_
  have hmem' : o' ∈ c.occurrences .plain := by simp [hc, ho']
  exact (h.fit.child hmem).flat_block hchild hopen hmem'

/-- What is registered of an identifier is registered in one scope. -/
theorem one_scope (hblocks : tree.BlocksOnTop) {before' after' : List Occurrence}
    {o' : Occurrence} (hos : tree.occurrences .plain = before ++ o :: after)
    (hos' : tree.occurrences .plain = before' ++ o' :: after') {j j' : ScopeId}
    {x x' : String}
    (hadded : (j, x, i) ∈
      (before.foldl step (Binding.initial tree.span last).names).added .vars o)
    (hadded' : (j', x', i) ∈
      (before'.foldl step (Binding.initial tree.span last).names).added .vars o') :
    j = j' := by
  have hvalid := valid_initial tree.span last
  have hmentions := Names.mentions_of_added hadded
  have hmentions' := Names.mentions_of_added hadded'
  by_cases hi : i ∈ tree.revisited
  · rw [(hvalid.foldl before).scope_of_added (h.current_of_revisited hblocks hi hos hmentions)
        hadded,
      (hvalid.foldl before').scope_of_added (h.current_of_revisited hblocks hi hos' hmentions')
        hadded']
  · -- It is mentioned only once.
    have hcount := h.count_mentions .vars i
    rw [if_neg hi, Nat.one_mul] at hcount
    obtain ⟨rfl, rfl⟩ := split_unique (Nat.le_trans hcount (h.count_ids i)) hos hos' hmentions
      hmentions'
    exact Names.added_unique hadded hadded'

end Program.BoundAs

end ShaderSource
