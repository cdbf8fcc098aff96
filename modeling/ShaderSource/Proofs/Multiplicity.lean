import ShaderSource.Proofs.Mentions

/-!
# How often nodes are registered

A step of binding adds at most one reference, to a node that its occurrence mentions or, if a call
has got a new callee, to that. So what the scopes list is bounded by what the tree mentions. A new
callee is listed once at most: it is listed when its call is gone over again, and that happens only
once. For the same reason the name that it has replaced is listed once at most.

It follows that nothing is registered twice but what stands in the dimensions of the members of a
block without an instance. These are registered twice, and if the block stands in a function, then
not always in the same scope.

## Main results

* `Program.BoundAs.count_listing`, `Program.BoundAs.count_fresh`, `Program.BoundAs.count_lost`: how
  often nodes are listed.
* `Program.count_listed`: how often nodes are registered in all scopes together.
-/

namespace ShaderSource

open List Names Node

variable {site v i : NodeId} {os : List Occurrence} {target' target : RenameTarget} {o : Occurrence}
  {n : Node}

/-! ### What a run lists -/

/-- The nodes of a listing. -/
def listedNodes (l : List (ScopeId × String × NodeId)) : List NodeId :=
  l.map fun e => e.2.2

namespace Names

variable {b : Names} {target : RenameTarget} {i : NodeId}

/-- What a run adds, part by part. -/
theorem addedAll_append (os os' : List Occurrence) :
    b.addedAll target (os ++ os') =
      b.addedAll target os ++ (os.foldl step b).addedAll target os' := by
  induction os generalizing b with
  | nil => rfl
  | cons o os ih =>
    rw [cons_append, addedAll, addedAll, ih, append_assoc, foldl_cons]

/-- A step lists what its occurrence mentions, new callees apart. -/
theorem count_added (o : Occurrence)
    (h : target = .types → ∀ site v, b.callees.get? site = some v → v ≠ i) :
    (listedNodes (b.added target o)).count i ≤ (o.mentions target).count i := by
  cases o with
  | enter | leave | malformed => exact Nat.zero_le _
  | declareVariable name site | useVariable name site =>
    cases target with
    | vars =>
      simp only [added]
      split
      · exact Nat.le_refl _
      · exact Nat.zero_le _
    | types | functions => exact Nat.zero_le _
  | declareType | useType | declareFunction | defineFunction =>
    cases target <;> exact Nat.le_refl _
  | call name callee arguments site =>
    simp only [added]
    split
    · cases target with
      | types =>
        cases hget : b.callees.get? site.id with
        | none => exact Nat.le_refl _
        | some v =>
          have hne := h rfl site.id v hget
          simp [listedNodes, hne]
      | vars | functions => exact Nat.zero_le _
    · split
      · cases target with
        | functions => exact Nat.le_refl _
        | vars | types => exact Nat.zero_le _
      · exact Nat.zero_le _

/-- A new callee is listed for its call only. -/
theorem count_added_fresh (o : Occurrence) (hsite : ∀ s, b.callees.get? s = some v → s = site)
    (hfresh : v ∉ o.mentions .types) :
    (listedNodes (b.added .types o)).count v ≤ (o.mentions .functions).count site := by
  cases o with
  | enter | leave | malformed | declareFunction | defineFunction
  | declareVariable name site | useVariable name site => exact Nat.zero_le _
  | declareType name site | useType name site =>
    have hnone : (listedNodes (b.added .types (.useType name site))).count v = 0 :=
      count_eq_zero.mpr hfresh
    exact Nat.le_of_eq hnone
  | call name callee arguments s =>
    simp only [added]
    split
    · cases hget : b.callees.get? s.id with
      | none =>
        have hnone : [callee.id].count v = 0 := count_eq_zero.mpr hfresh
        exact Nat.le_trans (Nat.le_of_eq hnone) (Nat.zero_le _)
      | some v' =>
        by_cases hv : v' = v
        · subst hv
          obtain rfl := hsite s.id hget
          simp [listedNodes, Occurrence.mentions]
        · simp [listedNodes, hv]
    · split <;> exact Nat.zero_le _

/-- A variable is listed as often as it is mentioned, if its name is not that of a built-in one. -/
theorem count_addedAll_vars
    (h : ∀ o ∈ os, ∀ name site, o = .declareVariable name site ∨ o = .useVariable name site →
      site.id = i → Vocabulary.isBuiltinVariable name = false) :
    (listedNodes (b.addedAll .vars os)).count i =
      (os.flatMap (Occurrence.mentions .vars)).count i := by
  induction os generalizing b with
  | nil => rfl
  | cons o os ih =>
    rw [addedAll, flatMap_cons, listedNodes, map_append, count_append,
      count_append]
    refine congrArg₂ (· + ·) ?_ (ih fun o' ho' => h o' (mem_cons_of_mem o ho'))
    have hvariable : ∀ name site (j : ScopeId),
        o = .declareVariable name site ∨ o = .useVariable name site →
        ((if RenameTarget.vars = .vars ∧ ¬Vocabulary.isBuiltinVariable name then
          [(j, name, site.id)] else []).map fun e => e.2.2).count i = [site.id].count i := by
      intro name site j ho
      by_cases hid : site.id = i
      · simp [h o mem_cons_self name site ho hid]
      · split <;> simp [hid]
    cases o with
    | declareVariable name site => exact hvariable name site _ (.inl rfl)
    | useVariable name site => exact hvariable name site _ (.inr rfl)
    | enter | leave | malformed | declareType | useType | declareFunction | defineFunction => rfl
    | call name callee arguments site =>
      simp only [added]
      split
      · rfl
      · split <;> rfl

/-- If every step lists as much as is mentioned, then so does a run. -/
theorem count_addedAll {j : NodeId}
    (h : ∀ before o after, os = before ++ o :: after →
      (listedNodes ((before.foldl step b).added target o)).count i ≤
        (o.mentions target').count j) :
    (listedNodes (b.addedAll target os)).count i ≤
      (os.flatMap (Occurrence.mentions target')).count j := by
  induction os generalizing b with
  | nil => exact Nat.le_refl _
  | cons o os ih =>
    rw [addedAll, flatMap_cons, listedNodes, map_append, count_append,
      count_append]
    refine Nat.add_le_add (h [] o os rfl) (ih fun before o' after hos => ?_)
    exact h (o :: before) o' after (by rw [hos]; rfl)

/-- If moreover one step lists less, then so does the run. -/
theorem count_addedAll_lt {j : NodeId} {before after : List Occurrence}
    (h : ∀ before o after, os = before ++ o :: after →
      (listedNodes ((before.foldl step b).added target o)).count i ≤
        (o.mentions target').count j)
    (hos : os = before ++ o :: after)
    (hless : (listedNodes ((before.foldl step b).added target o)).count i <
      (o.mentions target').count j) :
    (listedNodes (b.addedAll target os)).count i <
      (os.flatMap (Occurrence.mentions target')).count j := by
  have hbefore : (listedNodes (b.addedAll target before)).count i ≤
      (before.flatMap (Occurrence.mentions target')).count j :=
    count_addedAll fun x o' y heq => h x o' (y ++ o :: after) (by rw [hos, heq]; simp)
  have hafter : (listedNodes (((before.foldl step b).step o).addedAll target after)).count i ≤
      (after.flatMap (Occurrence.mentions target')).count j := by
    refine count_addedAll fun x o' y heq => ?_
    have hsplit := h (before ++ o :: x) o' y (by rw [hos, heq]; simp)
    rwa [foldl_append] at hsplit
  rw [hos, addedAll_append, addedAll, flatMap_append, flatMap_cons]
  simp only [listedNodes, map_append, count_append] at hbefore hless hafter ⊢
  omega

end Names

/-! ### What a program lists -/

/-- Names of types stay in a tree, unless they are those of calls that get other callees. -/
theorem Node.typeName_stays {m : Node} (callees : Registry NodeId NodeId) (hm : m ∈ n.preorder)
    (hkind : m.kind = .typeName) (hleaf : m.exchangeCallees callees = m) :
    m ∈ (n.exchangeCallees callees).preorder ∨
      ∃ id span, ∃ callee : PlainCallee, ∃ parts fresh, callee.name = m.id ∧
        .mk .functionCall id span (.child callee.node :: parts) ∈ n.preorder ∧
        callees.get? id = some fresh := by
  induction n using induction with
  | h n ih =>
    rcases mem_preorder_iff.mp hm with rfl | ⟨c, hc, hmc⟩
    · left
      rw [hleaf]
      exact m.mem_preorder_self
    · rcases ih c hc hmc with hstays | ⟨id, span, callee, parts, fresh, hname, hcall, hget⟩
      · have hchild : c.exchangeCallees callees ∈ (n.exchangeCallees callees).children →
            m ∈ (n.exchangeCallees callees).preorder :=
          fun hmem => mem_preorder_of_mem_child hmem hstays
        rcases n.exchangeCallees_cases callees with
          heq | ⟨id, span, callee, parts, fresh, rfl, hget, heq⟩
        · refine .inl (hchild ?_)
          rw [heq, children_mapChildren]
          exact mem_map_of_mem hc
        · rw [children_mk, flatMap_cons, mem_append] at hc
          rcases hc with hc | hc
          · -- The name of the call itself.
            obtain rfl := mem_singleton.mp hc
            have hname : callee.name = m.id := by
              simp only [PlainCallee.node, preorder, Part.preorders, Part.preorder, preorders,
                append_nil, mem_cons, not_mem_nil, or_false] at hmc
              rcases hmc with rfl | rfl
              · cases hkind
              · rfl
            exact .inr ⟨id, span, callee, parts, fresh, hname, mem_preorder_self _, hget⟩
          · refine .inl (hchild ?_)
            rw [heq, children_mk, flatMap_cons, Part.nodes_map_mapNodes]
            exact mem_append_right _ (mem_map_of_mem hc)
      · exact .inr ⟨id, span, callee, parts, fresh, hname, mem_preorder_of_mem_child hc hcall,
          hget⟩

/-- A tree with new callees has the identities that it had, and theirs. -/
theorem Node.mem_ids_exchangeCallees {callees : Registry NodeId NodeId}
    (hi : i ∈ (n.exchangeCallees callees).ids) :
    i ∈ n.ids ∨ ∃ site, callees.get? site = some i := by
  obtain ⟨m, hm, rfl⟩ := mem_ids.mp hi
  rcases mem_exchangeCallees callees hm with ⟨m', hm', rfl⟩ | ⟨site, _, _, _, hget, rfl⟩
  · rw [id_exchangeCallees]
    exact .inl (id_mem_ids hm')
  · exact .inr ⟨site, hget⟩

/-- What an occurrence mentions is in the tree that it is about. -/
theorem Occurrence.About.mentions_mem {root : Node} (h : o.About root)
    (hi : i ∈ o.mentions target) : i ∈ root.ids := by
  have hnode : ∀ {m}, m ∈ root.preorder → i ∈ [m.id] → i ∈ root.ids := by
    intro m hmem hi
    rw [mem_singleton.mp hi]
    exact id_mem_ids hmem
  cases h with
  | enter | leave | malformed => cases target <;> cases hi
  | declareVariable hmem | useVariable hmem =>
    cases target with
    | vars => exact hnode hmem hi
    | types | functions => cases hi
  | declareType hmem | useType hmem =>
    cases target with
    | types => exact hnode hmem hi
    | vars | functions => cases hi
  | declareFunction hmem | defineFunction hmem =>
    cases target with
    | functions => exact hnode hmem hi
    | vars | types => cases hi
  | @call id span callee parts arguments hmem =>
    cases target with
    | vars => cases hi
    | types =>
      exact hnode (mem_preorder_trans (mem_preorder_first hmem)
        (child_mem_preorder mem_children_first)) hi
    | functions => exact hnode hmem hi

/-- Types do not bear the names of variables and functions. -/
theorem Node.Bears.kind_ne {root leaf : Node} (h : root.Bears target n leaf)
    (htarget : target ≠ .types) : n.kind ≠ .typeSpecifier ∧ n.kind ≠ .typeName := by
  cases h with
  | ofVariable => simp [Node.leaf]
  | ofType => exact absurd rfl htarget
  | ofFunction hnamed =>
    rcases hnamed.kind with hkind | hkind | hkind | hkind <;> simp [hkind]

namespace Program.BoundAs

variable {p : Program} {tree n : Node} {last : NodeId} {b : Names} (h : p.BoundAs tree last b)
  {target : RenameTarget} {i : NodeId}

include h

/-- How often the nodes of a tree are mentioned. -/
theorem count_mentions (target : RenameTarget) (i : NodeId) :
    (tree.mentions target .plain).count i ≤
      (if i ∈ tree.revisited then 2 else 1) * tree.ids.count i :=
  h.fit.mentions_within (Subset.refl _) target .plain i

/-- An identity is in the tree once at most. -/
theorem count_ids (i : NodeId) : tree.ids.count i ≤ 1 :=
  nodup_iff_count_le_one.mp h.ids.nodup i

/-- A node is mentioned twice at most. -/
theorem count_mentions_le (target : RenameTarget) (i : NodeId) :
    (tree.mentions target .plain).count i ≤ 2 := by
  have hcount := h.count_mentions target i
  have hids := h.count_ids i
  split at hcount <;> omega

/-- What a step lists, new callees apart. -/
theorem count_step (target : RenameTarget)
    (hold : target = .types → ∀ site, b.callees.get? site ≠ some i)
    (before : List Occurrence) (o : Occurrence) (after : List Occurrence)
    (hos : tree.occurrences .plain = before ++ o :: after) :
    (listedNodes ((before.foldl step (Binding.initial tree.span last).names).added
      target o)).count i ≤ (o.mentions target).count i := by
  refine Names.count_added o fun htypes site v hget hv => hold htypes site ?_
  rw [h.names, hos, foldl_append, ← hv]
  exact foldl_callees_mono _ hget

/-- A program lists a node as often as the steps of its binding together. -/
theorem count_listing_eq (target : RenameTarget) (i : NodeId) :
    (listedNodes (p.scopes.listing target)).count i =
      (listedNodes ((Binding.initial tree.span last).names.addedAll target
        (tree.occurrences .plain))).count i :=
  ((h.listing target).map _).count_eq i

/-- What is listed, new callees apart. -/
theorem count_listing (hold : target = .types → ∀ site, b.callees.get? site ≠ some i) :
    (listedNodes (p.scopes.listing target)).count i ≤ if i ∈ tree.revisited then 2 else 1 := by
  rw [h.count_listing_eq]
  calc _ ≤ (tree.mentions target .plain).count i := Names.count_addedAll (h.count_step target hold)
    _ ≤ (if i ∈ tree.revisited then 2 else 1) * tree.ids.count i := h.count_mentions target i
    _ ≤ (if i ∈ tree.revisited then 2 else 1) * 1 := Nat.mul_le_mul_left _ (h.count_ids i)
    _ = if i ∈ tree.revisited then 2 else 1 := Nat.mul_one _

/-- What an occurrence of the tree mentions is in the tree. -/
theorem mentions_mem (target : RenameTarget) (ho : o ∈ tree.occurrences .plain)
    (hi : i ∈ o.mentions target) : i ∈ tree.ids :=
  (occurrence_about h.fit ho).mentions_mem hi

/-- A call with a new callee was once taken for the call of a function, and not listed as a type
then. -/
theorem exists_exchange (hget : b.callees.get? site = some v) :
    ∃ before name callee arguments s after,
      tree.occurrences .plain = before ++ .call name callee arguments s :: after ∧ s.id = site ∧
        (before.foldl step (Binding.initial tree.span last).names).added .types
          (.call name callee arguments s) = [] := by
  rw [h.names] at hget
  rcases Names.exists_exchange hget with hget |
    ⟨before, name, callee, arguments, s, after, hos, hsite, hnone⟩
  · cases hget
  · refine ⟨before, name, callee, arguments, s, after, hos, hsite, ?_⟩
    simp only [Names.added, if_neg hnone]
    split <;> rfl

/-- A new callee is listed at most once. -/
theorem count_fresh (hget : b.callees.get? site = some v) :
    (listedNodes (p.scopes.listing .types)).count v ≤ 1 := by
  obtain ⟨before, name, callee, arguments, s, after, hos, rfl, hnone⟩ := h.exists_exchange hget
  have hstep : ∀ before o after, tree.occurrences .plain = before ++ o :: after →
      (listedNodes ((before.foldl step (Binding.initial tree.span last).names).added
        .types o)).count v ≤ (o.mentions .functions).count s.id := by
    intro before o after hos
    refine Names.count_added_fresh o (fun s' hget' => ?_) fun hmem => ?_
    · refine h.sound.distinct s' s.id v ?_ hget
      rw [h.names, hos, foldl_append]
      exact foldl_callees_mono _ hget'
    · exact h.fresh hget (h.mentions_mem .types (by simp [hos]) hmem)
  have hless := Names.count_addedAll_lt hstep hos (by
    rw [hnone]
    simp [listedNodes, Occurrence.mentions])
  have hcount := h.count_mentions_le .functions s.id
  rw [h.count_listing_eq]
  unfold Node.mentions at hcount
  omega

/-- The name of a call with a new callee is listed at most once. -/
theorem count_lost {id fresh : NodeId} {span : Option Span} {callee : PlainCallee}
    {parts : List Part}
    (hcall : .mk .functionCall id span (.child callee.node :: parts) ∈ tree.preorder)
    (hget : b.callees.get? id = some fresh) :
    (listedNodes (p.scopes.listing .types)).count callee.name ≤ 1 := by
  obtain ⟨before, name, site, arguments, s, after, hos, hsite, hnone⟩ := h.exists_exchange hget
  have ho : .call name site arguments s ∈ tree.occurrences .plain := by simp [hos]
  have hname : site.id = callee.name := by
    cases occurrence_about h.fit ho with
    | @call _ _ callee' _ _ hcall' =>
      cases callee
      cases callee'
      cases Distinct.eq_of_id h.ids.nodup hcall' hcall hsite
      rfl
  have hids : callee.name ∈ tree.ids :=
    h.mentions_mem .types ho (by simp [Occurrence.mentions, hname])
  have hless := Names.count_addedAll_lt
    (h.count_step .types fun _ site hget' => h.fresh hget' hids) hos (by
      rw [hnone]
      simp [listedNodes, Occurrence.mentions, hname])
  have hcount := h.count_mentions_le .types callee.name
  rw [h.count_listing_eq]
  unfold Node.mentions at hcount
  omega

/-- The dimensions of members of open blocks, as they were read and with new callees. -/
theorem mem_revisited : i ∈ p.root.revisited ↔ ∃ block ∈ tree.preorder, block.isOpenBlock = true ∧
      ∃ x ∈ block.along [3, 1, 1], i ∈ (x.exchangeCallees b.callees).ids := by
  rw [Node.mem_revisited]
  constructor
  · rintro ⟨block', hblock', hopen, hi⟩
    have hkind := (isOpenBlock_iff.mp hopen).1
    rcases h.origin hblock' with ⟨block, hblock, rfl⟩ | ⟨_, _, _, _, -, rfl⟩
    · rw [kind_exchangeCallees] at hkind
      rw [isOpenBlock_exchangeCallees] at hopen
      obtain ⟨x', hx', hi⟩ := mem_flatMap.mp hi
      rw [(h.fit.below hblock).along_members b.callees (.inr hkind)] at hx'
      obtain ⟨x, hx, rfl⟩ := mem_map.mp hx'
      exact ⟨block, hblock, hopen, x, hx, hi⟩
    · cases hkind
  · rintro ⟨block, hblock, hopen, x, hx, hi⟩
    have hkind := (isOpenBlock_iff.mp hopen).1
    refine ⟨block.exchangeCallees b.callees, ?_, ?_, ?_⟩
    · rw [h.root]
      exact exchangeCallees_mem b.callees hblock (by simp [hkind]) (by simp [hkind])
    · rwa [isOpenBlock_exchangeCallees]
    · refine mem_flatMap.mpr ⟨x.exchangeCallees b.callees, ?_, hi⟩
      rw [(h.fit.below hblock).along_members b.callees (.inr hkind)]
      exact mem_map_of_mem hx

/-- What is listed twice stands in the dimensions of a member of an open block. -/
theorem mem_revisited_of_count (hcount : 1 < (listedNodes (p.scopes.listing target)).count i) :
    i ∈ p.root.revisited := by
  have hrefers : ∃ x, p.scopes.Refers target x i := by
    have hmem := count_pos_iff.mp (Nat.lt_trans Nat.one_pos hcount)
    obtain ⟨⟨j, x, i'⟩, he, rfl⟩ := mem_map.mp hmem
    exact ⟨x, ScopeTree.refers_iff_listing.mpr ⟨j, he⟩⟩
  obtain ⟨x, hrefers⟩ := hrefers
  -- It is a node as it was read: new callees are listed once.
  have hold : target = .types → ∀ site, b.callees.get? site ≠ some i := by
    rintro rfl site hget
    exact absurd (h.count_fresh hget) (Nat.not_le_of_lt hcount)
  have hrevisited : i ∈ tree.revisited := by
    by_contra hnot
    have hle := h.count_listing hold
    rw [if_neg hnot] at hle
    omega
  obtain ⟨block, hblock, hopen, hi⟩ := Node.mem_revisited.mp hrevisited
  obtain ⟨x, hx, hi⟩ := mem_flatMap.mp hi
  refine h.mem_revisited.mpr ⟨block, hblock, hopen, x, hx, ?_⟩
  obtain ⟨m, hm, rfl⟩ := mem_ids.mp hi
  have hxtree : x ∈ tree.preorder := mem_preorder_trans hblock (mem_along hx)
  have hmtree : m ∈ tree.preorder := mem_preorder_trans hxtree hm
  have hstays : m.kind ≠ .typeSpecifier → m.kind ≠ .typeName →
      m.id ∈ (x.exchangeCallees b.callees).ids := by
    intro htype hname
    rw [← id_exchangeCallees b.callees m]
    exact id_mem_ids (exchangeCallees_mem b.callees hm htype hname)
  by_cases htarget : target = .types
  · subst htarget
    rcases h.listed_type hrefers with ⟨span, t, hleaf, -⟩ | ⟨site, hget⟩
    · have hself := Distinct.eq_of_id h.ids.nodup hmtree hleaf rfl
      have hkind : m.kind = .typeName := by rw [hself]; rfl
      have hsame := (h.fit.below hmtree).fits.exchangeCallees_eq b.callees (.inr hkind)
      rcases typeName_stays b.callees hm hkind hsame with
        hmem | ⟨id, span', callee, parts, fresh, hname, hcall, hget⟩
      · exact id_mem_ids hmem
      · rw [← hname] at hcount
        exact absurd (h.count_lost (mem_preorder_trans hxtree hcall) hget)
          (Nat.not_le_of_lt hcount)
    · exact absurd hget (hold rfl site)
  · obtain ⟨n, hn, hid, _, _, _, hbears, -⟩ := h.bears htarget hrefers
    rcases h.origin hn with ⟨m', hm', rfl⟩ | ⟨site, fresh, span, t, hget, rfl⟩
    · rw [id_exchangeCallees] at hid
      obtain rfl := Distinct.eq_of_id h.ids.nodup hm' hmtree hid
      have hkind := hbears.kind_ne
      rw [kind_exchangeCallees] at hkind
      exact hstays (hkind htarget).1 (hkind htarget).2
    · obtain rfl : fresh = m.id := hid
      exact absurd (id_mem_ids hmtree) (h.fresh hget)

/-- A variable is listed as often as it is mentioned. -/
theorem count_variable (hn : n ∈ tree.preorder)
    (hbuiltin : Vocabulary.isBuiltinVariable n.text = false) :
    (listedNodes (p.scopes.listing .vars)).count n.id =
      (tree.mentions .vars .plain).count n.id := by
  rw [h.count_listing_eq]
  refine Names.count_addedAll_vars fun o ho name site hvariable hid => ?_
  have hleaf : ∀ {span : Option Span} {t : Token}, Node.leaf .identifier site.id span t ∈
      tree.preorder → Vocabulary.isBuiltinVariable t.text = false := by
    intro span t hmem
    rw [Distinct.eq_of_id h.ids.nodup hn hmem hid.symm] at hbuiltin
    exact hbuiltin
  rcases hvariable with rfl | rfl
  · cases occurrence_about h.fit ho with
    | declareVariable hmem => exact hleaf hmem
  · cases occurrence_about h.fit ho with
    | useVariable hmem => exact hleaf hmem

/-- A variable in the dimensions of a member of an open block is mentioned twice. -/
theorem mentions_revisited (hn : n ∈ tree.preorder) (hkind : n.kind = .identifier)
    (hnames : ¬tree.NamesOther n) (hrevisited : n.id ∈ p.root.revisited) :
    2 ≤ (tree.mentions .vars .plain).count n.id := by
  obtain ⟨block, hblock, hopen, x, hx, hi⟩ := h.mem_revisited.mp hrevisited
  have hxtree : x ∈ tree.preorder := mem_preorder_trans hblock (mem_along hx)
  have hids : n.id ∈ x.ids := by
    rcases mem_ids_exchangeCallees hi with hids | ⟨site, hget⟩
    · exact hids
    · exact absurd (id_mem_ids hn) (h.fresh hget)
  obtain ⟨m, hm, hid⟩ := mem_ids.mp hids
  obtain rfl := Distinct.eq_of_id h.ids.nodup (mem_preorder_trans hxtree hm) hn hid
  have hxkind := ((h.fit.below hblock).of_dimension hopen hx).1
  have hmention : m.id ∈ x.mentions .vars .plain := by
    rcases (h.fit.below hxtree).mentions_identifier (by simp [IsWhole, hxkind]) hm hkind
      (fun hother => hnames (hother.above hxtree)) with ho | ho
    · exact mem_flatMap.mpr ⟨_, ho, mem_singleton_self _⟩
    · exact mem_flatMap.mpr ⟨_, ho, mem_singleton_self _⟩
  obtain ⟨role, hreach⟩ := h.fit.visited hblock (by rw [(isOpenBlock_iff.mp hopen).1]; rfl)
  refine Nat.le_trans ((h.fit.below hblock).mentions_twice hopen hx hmention role) ?_
  exact ((hreach.sublist h.fit).flatMap _).count_le m.id

end Program.BoundAs

/-- The nodes that the scopes list as references. -/
def ScopeTree.listed (t : ScopeTree) (target : RenameTarget) : List NodeId :=
  t.scopes.flatMap fun s => (s.references target).flatMap Prod.snd

/-- `ScopeTree.listed` has the nodes of `ScopeTree.listing`. -/
theorem ScopeTree.listed_eq (t : ScopeTree) (target : RenameTarget) :
    t.listed target = listedNodes (t.listing target) := by
  simp [ScopeTree.listed, ScopeTree.listing, Scope.listing, listedNodes, map_flatMap,
    Function.comp_def]

/-- **How often nodes are registered**: in all scopes together, a node is listed at most once as a
variable, as a type, and as a function, unless it stands in the dimensions of a member of a block
without an instance; then it is listed at most twice. For variables the bounds are reached. -/
theorem Program.count_listed {text : String} {options : Options} {p : Program}
    (hp : Program.parse text options = .ok p) :
    (∀ target i, (p.scopes.listed target).count i ≤ if i ∈ p.root.revisited then 2 else 1) ∧
    ∀ n ∈ p.root.preorder, n.kind = .identifier → Vocabulary.isBuiltinVariable n.text = false →
      ¬p.root.NamesOther n →
        (p.scopes.listed .vars).count n.id = if n.id ∈ p.root.revisited then 2 else 1 := by
  obtain ⟨tree, last, b, h⟩ := Program.boundAs hp
  have hbound : ∀ target i,
      (p.scopes.listed target).count i ≤ if i ∈ p.root.revisited then 2 else 1 := by
    intro target i
    rw [ScopeTree.listed_eq]
    split
    · by_cases hfresh : target = .types ∧ ∃ site, b.callees.get? site = some i
      · obtain ⟨rfl, site, hget⟩ := hfresh
        exact Nat.le_succ_of_le (h.count_fresh hget)
      · have hle := h.count_listing fun htypes site hget => hfresh ⟨htypes, site, hget⟩
        split at hle <;> omega
    · rename_i hnot
      by_contra hmore
      exact hnot (h.mem_revisited_of_count (Nat.lt_of_not_le hmore))
  refine ⟨hbound, fun n hn hkind hbuiltin hnames => Nat.le_antisymm (hbound .vars n.id) ?_⟩
  obtain ⟨m, hm, heq⟩ := (h.mem_root hn).resolve_right hnames
  have hkind' : m.kind = .identifier := by rwa [heq, kind_exchangeCallees] at hkind
  obtain rfl : n = m := heq.trans ((h.fit.below hm).fits.exchangeCallees_eq b.callees (.inl hkind'))
  rw [ScopeTree.listed_eq]
  split
  · rename_i hrevisited
    rw [h.count_variable hm hbuiltin]
    refine h.mentions_revisited hm hkind (fun hother => hnames ?_) hrevisited
    rw [h.root, heq]
    exact hother.exchangeCallees b.callees h.fit h.read hkind
  · have hrefers := h.registers_variable hn hkind hbuiltin hnames
    obtain ⟨j, hmem⟩ := ScopeTree.refers_iff_listing.mp hrefers
    exact count_pos_iff.mpr (mem_map_of_mem hmem)

/-- A variable that is registered twice, and in two scopes. -/
theorem Program.count_listed_local :
    ∃ p,
      Program.parse "int N; void f() \x7b uniform B \x7b int N; float a[N]; \x7d; \x7d"
        Options.default = .ok p ∧
      p.scopes.listing .vars =
        [(0, "N", 8), (0, "N", 33), (1, "N", 25), (1, "N", 33), (1, "a", 31)] ∧
      p.root.revisited = [32, 33] ∧ (p.scopes.listed .vars).count 33 = 2 ∧
      ∀ target i, (p.scopes.listed target).count i ≤ if i ∈ p.root.revisited then 2 else 1 := by
  refine Program.exists_of_parse (fun p hparse (h : _ ∧ _ ∧ _) =>
    ⟨hparse, h.1, h.2.1, h.2.2, (Program.count_listed hparse).1⟩) ?_
  decide +kernel

end ShaderSource
