import ShaderSource.Proofs.Callees

/-!
# Identities are consistent

After binding, the identities of a program's nodes are those that numbering gave, without the ones
of callees that were exchanged, and those of the new callees, which come after all others. Both
increase in pre-order. Every identity that is kept anywhere, in scopes or in diagnostics, is that
of a node of the final tree: what is dropped with an old callee was never registered, and never
reported.

## Main results

* `Program.BoundAs.type_stays`: type names that occurred are still in the tree.
* `Program.BoundAs.refers_mem`: whatever is registered is in the tree.
* `Names.reportsAll_blamed`: whatever is reported occurred.
* `Program.consistent_of_parse`: the identities of a program that was read.
-/

namespace ShaderSource

open List Node Registry

/-! ### Where occurrences come from -/

section Reached

variable {n m q root : Node} {role role' : Role}

/-- A node below one that is not passed is reached from there. -/
theorem Node.Reaches.parent (hfit : root.AllFit) (hids : root.Distinct)
    (h : root.Reaches role m role') (hq : q ∈ root.preorder) (hm : m ∈ q.children)
    (hpassed : q.kind.isPassed = false) :
    ∃ role'' role''' i, root.Reaches role q role'' ∧ .visit [i] role''' ∈ q.plan role'' ∧
      m ∈ q.field i := by
  cases h with
  | refl =>
    -- The root is not below itself.
    rcases mem_preorder_iff.mp hq with rfl | ⟨c, hc, hqc⟩
    · exact absurd rfl (hids.id_ne hm (mem_preorder_self _))
    · exact absurd rfl (hids.id_ne hc (mem_preorder_of_mem_children hqc hm))
  | @visit n role₁ path _ _ hreach hmove halong =>
    have hsame : ∀ q' ∈ root.preorder, m ∈ q'.children → q' = q := fun q' hq' hm' =>
      Distinct.parent_unique hids hq' hq hm' hm rfl
    rcases (hfit.below hreach.mem).visit_parent hmove halong with
      ⟨i, rfl, hfield⟩ | ⟨q', hq', hm', hpassed'⟩
    · obtain rfl := hsame n hreach.mem (mem_children_iff.mpr ⟨i, hfield⟩)
      exact ⟨role₁, _, i, hreach, hmove, hfield⟩
    · rw [hsame q' (mem_preorder_trans hreach.mem hq') hm', hpassed] at hpassed'
      cases hpassed'

end Reached

/-! ### Names of callees occur nowhere else -/

theorem Node.exchangeCallees_call_none {callees : Registry NodeId NodeId} {id : NodeId}
    (hget : callees.get? id = none) (span : Option Span) (callee : PlainCallee)
    (parts : List Part) :
    (Node.mk .functionCall id span (.child callee.node :: parts)).exchangeCallees callees =
      .mk .functionCall id span
        (.child callee.node :: parts.map (Part.mapNodes (exchangeCallees callees))) := by
  simp [PlainCallee.node, exchangeCallees, hget, Part.exchangeCalleesAll_eq]

namespace Program.BoundAs

variable {p : Program} {tree : Node} {last : NodeId} {b : Names} (h : p.BoundAs tree last b)

include h

/-- The name of a plain call is not gone through. -/
theorem not_reaches_calleeName {id : NodeId} {span : Option Span} {callee : PlainCallee}
    {parts : List Part} {m : Node}
    (hcall : .mk .functionCall id span (.child callee.node :: parts) ∈ tree.preorder)
    (hm : m.id = callee.name) {role : Role} : ¬tree.Reaches .plain m role := by
  intro hreach
  have hcallee := mem_preorder_first hcall
  have hname : Node.leaf .typeName callee.name callee.nameSpan callee.token ∈
      callee.node.children := mem_children_first
  obtain rfl : m = Node.leaf .typeName callee.name callee.nameSpan callee.token :=
    Distinct.eq_of_id h.ids.nodup hreach.mem
      (mem_preorder_of_mem_children hcallee hname) hm
  obtain ⟨_, _, _, hreach', -, -⟩ := hreach.parent h.fit h.ids.nodup hcallee hname rfl
  obtain ⟨role', role'', i, -, hmove, hfield⟩ :=
    hreach'.parent h.fit h.ids.nodup hcall mem_children_first rfl
  -- Only the arguments of a plain call are gone through, and they are no types.
  have hform := (h.fit.below hcall).fits.kind_mem_field hfield
  obtain rfl : i = 0 := Kind.typeSpecifier_in_call hform
  have hplain : (Node.mk .functionCall id span (.child callee.node :: parts)).isPlainCall = true :=
    rfl
  rw [plan, if_pos hplain] at hmove
  simp at hmove

section Types

variable {name : String} {site : Site} (ho : .declareType name site ∈ tree.occurrences .plain ∨
  .useType name site ∈ tree.occurrences .plain)

include ho

/-- A type name that occurred is a leaf of the tree that was read. -/
theorem exists_typeName : ∃ span t, Node.leaf .typeName site.id span t ∈ tree.preorder := by
  rcases ho with ho | ho
  all_goals
    cases occurrence_about h.fit ho
    exact ⟨_, _, by assumption⟩

/-- Type names that occurred, other than as callees, are still in the tree. -/
theorem type_stays : site.id ∈ p.root.ids := by
  obtain ⟨span, t, hleaf⟩ := h.exists_typeName ho
  rw [h.root]
  rcases typeName_stays b.callees hleaf rfl (exchangeCallees_leaf _ _ _ _ _) with
    hstays | ⟨id, span', callee, parts, fresh, hname, hcall, -⟩
  · exact id_mem_ids hstays
  · -- It would be the name of a call, which is neither gone through nor declared.
    obtain ⟨o, ho, hsite⟩ : ∃ o ∈ tree.occurrences .plain,
        o = .declareType name site ∨ o = .useType name site :=
      ho.elim (fun ho => ⟨_, ho, .inl rfl⟩) fun ho => ⟨_, ho, .inr rfl⟩
    obtain ⟨m, role, move, hreach, hmove, hvisit, hperform⟩ := h.fit.exists_move ho
    exfalso
    cases move with
    | visit path role' => exact hvisit path role' rfl
    | declare c path =>
      obtain ⟨leaf, hmem, rfl⟩ := mem_map.mp hperform
      have hid : leaf.id = site.id := by
        cases c <;> rcases hsite with hsite | hsite <;> cases hsite
        rfl
      obtain ⟨-, hchild⟩ := (h.fit.below hreach.mem).kind_declared hmove hmem
      have hcallee := mem_preorder_first hcall
      obtain rfl := Distinct.parent_unique h.ids.nodup hreach.mem hcallee hchild
        mem_children_first (hid.trans hname.symm)
      rw [plan_of_kind (by simp [PlainCallee.node]) (by simp [PlainCallee.node])] at hmove
      simp [PlainCallee.node, Kind.plan] at hmove
    | use c =>
      obtain rfl := mem_singleton.mp hperform
      have hid : m.id = site.id := by
        cases c <;> rcases hsite with hsite | hsite <;> cases hsite
        rfl
      exact h.not_reaches_calleeName hcall (hid.trans hname.symm) hreach
    | call =>
      obtain ⟨callee', -, hperform⟩ := mem_flatMap.mp hperform
      obtain ⟨name', -, rfl⟩ := mem_map.mp hperform
      rcases hsite with hsite | hsite <;> cases hsite
    | function path =>
      obtain ⟨prototype, -, hperform⟩ := mem_flatMap.mp hperform
      rcases mem_pair.mp hperform with rfl | rfl
      · unfold functionOccurrence at hsite
        split at hsite <;> rcases hsite with hsite | hsite <;> cases hsite
      · rcases hsite with hsite | hsite <;> cases hsite
    | enter | leave =>
      obtain rfl := mem_singleton.mp hperform
      rcases hsite with hsite | hsite <;> cases hsite

end Types

/-- What is listed as a type is in the tree. -/
theorem refers_type_mem {x : String} {i : NodeId} (href : p.scopes.Refers .types x i) :
    i ∈ p.root.ids := by
  obtain ⟨j, hmem⟩ := ScopeTree.refers_iff_listing.mp href
  obtain ⟨before, o, after, hos, hadded⟩ :=
    Names.mem_addedAll.mp ((h.listing .types).mem_iff.mp hmem)
  have ho : o ∈ tree.occurrences .plain := by simp [hos]
  generalize hb' : before.foldl Names.step (Binding.initial tree.span last).names = b' at hadded
  cases o with
  | declareType name site =>
    obtain ⟨-, -, rfl⟩ : _ ∧ _ ∧ i = site.id := by simpa [Names.added] using hadded
    exact h.type_stays (.inl ho)
  | useType name site =>
    obtain ⟨-, -, rfl⟩ : _ ∧ _ ∧ i = site.id := by simpa [Names.added] using hadded
    exact h.type_stays (.inr ho)
  | call name callee arguments site =>
    by_cases hknown : b'.KnowsType name
    · obtain ⟨-, -, rfl⟩ : _ ∧ _ ∧ i = (b'.callees.get? site.id).getD callee.id := by
        simpa [Names.added, show (b'.scopes.lookup .type b'.current name).isSome = true
          from hknown] using hadded
      have hfinal : b = after.foldl Names.step (b'.step (.call name callee arguments site)) := by
        rw [h.names, hos, foldl_append, hb', foldl_cons]
      cases occurrence_about h.fit ho with
      | @call id span callee parts _ hcall =>
        have hstays := exchangeCallees_mem b.callees hcall (by simp) (by simp)
        rw [← h.root] at hstays
        cases hget : b'.callees.get? id with
        | some fresh =>
          have hlast : b.callees.get? id = some fresh := by
            rw [hfinal]
            exact Names.foldl_callees_mono after (b'.step_callees_mono _ hget)
          rw [exchangeCallees_call b.callees hlast] at hstays
          exact id_mem_ids (mem_preorder_first hstays)
        | none =>
          -- Calls of types keep their callees.
          have hlast : b.callees.get? id = none := by
            rw [h.names]
            exact (h.fit.exchanges h.ids.nodup .plain _).types before _ _ _ _ after hos
              (hb' ▸ hknown) (hb' ▸ hget)
          rw [exchangeCallees_call_none hlast] at hstays
          exact id_mem_ids (mem_preorder_trans (mem_preorder_first hstays)
            (child_mem_preorder mem_children_first))
    · have hnone : ¬(b'.scopes.lookup .type b'.current name).isSome = true := hknown
      simp only [Names.added, if_neg hnone] at hadded
      split at hadded <;> simp at hadded
  | _ => simp [Names.added] at hadded

/-- Whatever is registered is in the tree. -/
theorem refers_mem {target : RenameTarget} {x : String} {i : NodeId}
    (href : p.scopes.Refers target x i) : i ∈ p.root.ids := by
  by_cases htarget : target = .types
  · subst htarget
    exact h.refers_type_mem href
  · obtain ⟨n, hn, rfl, -⟩ := h.bears htarget href
    exact id_mem_ids hn

end Program.BoundAs

/-! ### Diagnostics -/

/-- The node that is to blame if something is wrong with the occurrence. -/
def Occurrence.blamed : Occurrence → List NodeId
  | .declareVariable _ site => [site.id]
  | .useVariable _ site => [site.id]
  | .declareType _ site => [site.id]
  | .useType _ site => [site.id]
  | .declareFunction _ _ site => [site.id]
  | .defineFunction _ _ site => [site.id]
  | .call _ _ _ site => [site.id]
  | _ => []

namespace Names

variable {b : Names} {d : Diagnostic}

/-- What is reported about an occurrence is about the node that is to blame. -/
theorem reports_blamed {o : Occurrence} (h : d ∈ b.reports o) : d.node ∈ o.blamed := by
  have hsite : ∀ {site : Site} {problem : Option Problem}, d ∈ site.reports problem →
      d.node ∈ [site.id] := by
    intro site problem hd
    rw [Site.reports, Option.mem_toList, Option.map_eq_some_iff] at hd
    obtain ⟨p, -, rfl⟩ := hd
    exact mem_singleton_self _
  cases o with
  | declareVariable | useVariable =>
    rw [reports] at h
    split at h
    · cases h
    · exact hsite h
  | declareType | useType | declareFunction | defineFunction => exact hsite h
  | call =>
    rw [reports] at h
    split at h
    · cases h
    · split at h
      · exact hsite h
      · cases h
  | enter | leave | malformed => cases h

theorem reportsAll_blamed {os : List Occurrence} (h : d ∈ b.reportsAll os) :
    ∃ o ∈ os, d.node ∈ o.blamed := by
  induction os generalizing b with
  | nil => cases h
  | cons o os ih =>
    rcases mem_append.mp h with h | h
    · exact ⟨o, mem_cons_self, reports_blamed h⟩
    · obtain ⟨o', ho', hnode⟩ := ih h
      exact ⟨o', mem_cons_of_mem _ ho', hnode⟩

end Names

/-- What is to blame for an occurrence is in the tree. -/
theorem Program.BoundAs.blamed_mem {p : Program} {tree : Node} {last : NodeId} {b : Names}
    (h : p.BoundAs tree last b) {o : Occurrence} (ho : o ∈ tree.occurrences .plain) {i : NodeId}
    (hi : i ∈ o.blamed) : i ∈ p.root.ids := by
  have hstays : ∀ n ∈ tree.preorder, n.kind ≠ .typeSpecifier → n.kind ≠ .typeName →
      n.id ∈ p.root.ids := by
    intro n hn htype hname
    rw [h.root, ← id_exchangeCallees b.callees n]
    exact id_mem_ids (exchangeCallees_mem b.callees hn htype hname)
  have habout := occurrence_about h.fit ho
  cases habout with
  | enter | leave | malformed => cases hi
  | declareVariable hleaf | useVariable hleaf =>
    obtain rfl := mem_singleton.mp hi
    exact hstays _ hleaf (by simp [Node.leaf]) (by simp [Node.leaf])
  | declareType =>
    obtain rfl := mem_singleton.mp hi
    exact h.type_stays (.inl ho)
  | useType =>
    obtain rfl := mem_singleton.mp hi
    exact h.type_stays (.inr ho)
  | declareFunction hf hkind | defineFunction hf hkind =>
    obtain rfl := mem_singleton.mp hi
    exact hstays _ hf (by simp [hkind]) (by simp [hkind])
  | call hcall =>
    obtain rfl := mem_singleton.mp hi
    exact hstays _ hcall (by simp) (by simp)

/-! ### The order of identities -/

/-- The values of keys in a list are in the order of the registry, if the keys are. -/
theorem Registry.filterMap_get? {ids : List NodeId} {r : Registry NodeId NodeId}
    (hids : ids.Nodup) (h : (r.map Prod.fst).Sublist ids) :
    ids.filterMap (fun i => r.get? i) = r.map Prod.snd := by
  induction ids generalizing r with
  | nil =>
    obtain rfl : r = [] := by simpa using h
    rfl
  | cons i ids ih =>
    obtain ⟨hi, hids⟩ := nodup_cons.mp hids
    cases r with
    | nil =>
      rw [map_nil, filterMap_eq_nil_iff]
      exact fun _ _ => rfl
    | cons e r =>
      obtain ⟨k, v⟩ := e
      rw [map_cons] at h
      by_cases hk : i = k
      · -- The first key, which is not there again.
        subst hk
        rw [cons_sublist_cons] at h
        have hrest : ids.filterMap (fun j => get? j ((i, v) :: r)) =
            ids.filterMap fun j => get? j r := by
          refine filterMap_congr fun j hj => ?_
          have hne : i ≠ j := by
            rintro rfl
            exact hi hj
          rw [get?, if_neg hne]
        rw [filterMap_cons, get?, if_pos rfl, hrest, ih hids h]
        rfl
      · have hsub : (List.map Prod.fst ((k, v) :: r)).Sublist ids := by
          cases h with
          | cons _ h => exact h
          | cons_cons => exact absurd rfl hk
        have hnone : get? i ((k, v) :: r) = none :=
          get?_eq_none_iff.mpr fun hmem => hi (hsub.subset hmem)
        rw [filterMap_cons, hnone]
        exact ih hids hsub

theorem Consecutive.pairwise {last next : Nat} {ids : List Nat} (h : Consecutive last ids next) :
    ids.Pairwise (· < ·) := by
  rw [h.1]
  exact pairwise_lt_range'

/-- The identities of callees that are identifiers on their own, in pre-order of their calls. -/
def Node.namedCallees (n : Node) : List NodeId :=
  (n.preorder.filter fun m => m.kind == .functionCall).flatMap fun m =>
    ((m.field 0).filter fun c => c.kind == .identifier).map Node.id

theorem Node.mem_namedCallees {n : Node} {i : NodeId} :
    i ∈ n.namedCallees ↔ ∃ m ∈ n.preorder, m.kind = .functionCall ∧
      ∃ c ∈ m.field 0, c.kind = .identifier ∧ c.id = i := by
  simp [namedCallees, and_assoc]

namespace Program.BoundAs

variable {p : Program} {tree : Node} {last : NodeId} {b : Names} (h : p.BoundAs tree last b)
  {i : NodeId}

include h

/-- No callee is an identifier before binding. -/
theorem namedCallees_tree : tree.namedCallees = [] := by
  refine eq_nil_iff_forall_not_mem.mpr fun i hi => ?_
  obtain ⟨m, hm, hkind, c, hc, hidentifier, -⟩ := Node.mem_namedCallees.mp hi
  exact (h.read m hm).kind_callee (h.fit.below hm).fits hkind hc hidentifier

/-- The callees that are identifiers are the new ones. -/
theorem mem_namedCallees : i ∈ p.root.namedCallees ↔ i ∈ p.root.ids ∧ last < i := by
  rw [Node.mem_namedCallees]
  constructor
  · rintro ⟨m, hm, hkind, c, hc, hidentifier, rfl⟩
    have hmem : c ∈ p.root.preorder := mem_preorder_trans hm
      (mem_preorder_of_mem_child (mem_children_iff.mpr ⟨0, hc⟩) c.mem_preorder_self)
    refine ⟨id_mem_ids hmem, ?_⟩
    rcases h.origin hm with ⟨m', hm', rfl⟩ | ⟨_, _, _, _, -, rfl⟩
    · rw [kind_exchangeCallees] at hkind
      rcases m'.exchangeCallees_cases b.callees with
        heq | ⟨id, span, callee, parts, fresh, rfl, hget, heq⟩
      · rw [heq, field_mapChildren] at hc
        obtain ⟨c', hc', rfl⟩ := mem_map.mp hc
        rw [kind_exchangeCallees] at hidentifier
        exact absurd hidentifier ((h.read _ hm').kind_callee (h.fit.below hm').fits hkind hc')
      · rw [heq] at hc
        obtain rfl : c = Node.leaf .identifier fresh callee.span callee.token := by
          simpa [Part.nodes, Node.leaf] using hc
        exact (h.sound.fresh id fresh hget).1
    · cases hkind
  · rintro ⟨hi, hlast⟩
    obtain ⟨n, hn, rfl⟩ := mem_ids.mp hi
    rcases h.mem_root_cases hn with ⟨m, hm, rfl⟩ | ⟨hkind, -, call, hcall, hcallkind, hfield⟩
    · rw [id_exchangeCallees] at hlast
      exact absurd (h.ids.mem (id_mem_ids hm)).2 (Nat.not_le_of_lt hlast)
    · exact ⟨call, hcall, hcallkind, n, hfield, hkind, rfl⟩

/-- The identities of the tree that numbering did not give are those of new callees, in the order
of the calls. -/
theorem filter_new : (p.root.ids.filter (last < ·)).Sublist
    (tree.ids.filterMap fun i => b.callees.get? i) := by
  have hpick : (tree.idsWith b.callees).filter (last < ·) =
      tree.ids.filterMap fun i => b.callees.get? i := by
    rw [idsWith, Node.ids, filterMap_map, filter_flatMap,
      filterMap_eq_flatMap_toList]
    refine flatMap_congr fun m hm => ?_
    have hid : ¬last < m.id := Nat.not_lt_of_le (h.ids.mem (id_mem_ids hm)).2
    rw [filter_cons, if_neg (by simpa using hid), filter_eq_self.mpr]
    · rfl
    · intro v hv
      simpa using (h.sound.fresh m.id v (Option.mem_toList.mp hv)).1
  rw [← hpick, h.root]
  exact (tree.exchangeCallees_ids b.callees).filter _

/-- The identities of the tree that numbering gave are in the order in which it gave them. -/
theorem filter_old : (p.root.ids.filter (· ≤ last)).Sublist tree.ids := by
  have hpick : (tree.idsWith b.callees).filter (· ≤ last) = tree.ids := by
    rw [idsWith, Node.ids, filter_flatMap, map_eq_flatMap]
    refine flatMap_congr fun m hm => ?_
    have hid : m.id ≤ last := (h.ids.mem (id_mem_ids hm)).2
    rw [filter_cons, if_pos (by simpa using hid), filter_eq_nil_iff.mpr]
    intro v hv
    simpa using (h.sound.fresh m.id v (Option.mem_toList.mp hv)).1
  rw [← hpick, h.root]
  exact (tree.exchangeCallees_ids b.callees).filter _

/-- New callees have increasing identities in pre-order of their calls. -/
theorem pairwise_new : (tree.ids.filterMap fun i => b.callees.get? i).Pairwise (· < ·) := by
  obtain ⟨new, hcallees, hkeys, hvalues⟩ := (h.fit.exchanges h.ids.nodup .plain
    (Binding.initial tree.span last).names).order
  have hnew : b.callees = new := by
    rw [h.names, hcallees]
    rfl
  rw [hnew, filterMap_get? h.ids.nodup hkeys]
  exact hvalues.pairwise

end Program.BoundAs

/-! ### Programs -/

/-- The identities of a program are consistent. -/
structure Program.Consistent (p : Program) : Prop where
  nonzero : ∀ i ∈ p.root.ids, i ≠ 0
  distinct : p.root.ids.Nodup
  /-- Callees that are identifiers apart, identities increase in pre-order. -/
  increasing : (p.root.ids.filter (· ∉ p.root.namedCallees)).Pairwise (· < ·)
  /-- So do those of callees that are identifiers. -/
  calleesIncreasing : (p.root.ids.filter (· ∈ p.root.namedCallees)).Pairwise (· < ·)
  /-- These come after all others. -/
  calleesLast : ∀ i ∈ p.root.ids, i ∉ p.root.namedCallees → ∀ j ∈ p.root.namedCallees, i < j
  /-- The nodes of variables and types are in the tree. -/
  entries : ∀ s ∈ p.scopes.scopes, ∀ c name e, (name, e) ∈ s.entries c →
    ∀ i ∈ e.nodes, i ∈ p.root.ids
  /-- The nodes of functions are in the tree. -/
  overloads : ∀ s ∈ p.scopes.scopes, ∀ name os, (name, os) ∈ s.functions →
    ∀ key o, (key, o) ∈ os → ∀ i ∈ o.nodes, i ∈ p.root.ids
  /-- The nodes of diagnostics are in the tree. -/
  diagnostics : ∀ d ∈ p.diagnostics, d.node ∈ p.root.ids

theorem Program.BoundAs.consistent {p : Program} {tree : Node} {last : NodeId} {b : Names}
    (h : p.BoundAs tree last b) (hdiagnostics : ∀ d ∈ p.diagnostics, d.node ∈ p.root.ids) :
    p.Consistent := by
  have hcallee : ∀ i ∈ p.root.ids, i ∈ p.root.namedCallees ↔ last < i := fun i hi => by
    rw [h.mem_namedCallees, and_iff_right hi]
  have hnodes : ∀ (target : RenameTarget) (x : String) {declaration : Option NodeId}
      {references : List NodeId}, (∀ j ∈ declaration, j ∈ references) →
      (∀ i ∈ references, p.scopes.Refers target x i) →
      ∀ i ∈ declaration.toList ++ references, i ∈ p.root.ids := by
    intro target x declaration references hsettled hrefers i hi
    rcases mem_append.mp hi with hi | hi
    · exact h.refers_mem (hrefers i (hsettled i (Option.mem_toList.mp hi)))
    · exact h.refers_mem (hrefers i hi)
  refine ⟨fun i hi => ?_, h.distinct, ?_, ?_, fun i hi hold j hj => ?_, ?_, ?_, hdiagnostics⟩
  · rw [h.root] at hi
    rcases mem_ids_exchangeCallees hi with hi | ⟨site, hget⟩
    · exact Nat.ne_of_gt (h.ids.mem hi).1
    · exact Nat.ne_of_gt (Nat.lt_of_le_of_lt (Nat.zero_le last) (h.sound.fresh site i hget).1)
  · have hfilter : p.root.ids.filter (· ∉ p.root.namedCallees) = p.root.ids.filter (· ≤ last) :=
      filter_congr fun i hi => by simp [hcallee i hi]
    rw [hfilter]
    exact h.ids.pairwise.sublist h.filter_old
  · have hfilter : p.root.ids.filter (· ∈ p.root.namedCallees) = p.root.ids.filter (last < ·) :=
      filter_congr fun i hi => by simp [hcallee i hi]
    rw [hfilter]
    exact h.pairwise_new.sublist h.filter_new
  · rw [hcallee i hi] at hold
    exact Nat.lt_of_le_of_lt (Nat.le_of_not_lt hold) (h.mem_namedCallees.mp hj).2
  · intro s hs c name e he
    refine hnodes c.target name ((h.settled s hs).entries c _ he) fun i hi => ?_
    exact ⟨s, hs, Scope.refers_entries.mpr ⟨e, he, hi⟩⟩
  · intro s hs name os hos key o ho
    refine hnodes .functions name ((h.settled s hs).functions _ hos _ ho) fun i hi => ?_
    exact ⟨s, hs, Scope.refers_functions.mpr ⟨os, hos, mem_flatMap.mpr ⟨_, ho, hi⟩⟩⟩

/-- **Identities are consistent in every program that was read**, and the identifiers that are
callees in it are just the nodes that binding has made: none was there when the tree was read, and
all other nodes have the identities that they were then given. -/
theorem Program.consistent_of_parse {text : String} {options : Options} {p : Program}
    (hp : Program.parse text options = .ok p) :
    p.Consistent ∧ ∃ tree last, Program.readNumbered text options = .ok (tree, last) ∧
      tree.namedCallees = [] ∧
      ∀ i ∈ p.root.ids, i ∈ p.root.namedCallees ↔ i ∉ tree.ids := by
  obtain ⟨tree, b, htree, hbind, rfl⟩ := Program.parse_eq_ok hp
  have h := Program.boundAs_of_ofTree htree hbind
  refine ⟨h.consistent fun d hd => ?_, (tree.number 0).1, (tree.number 0).2, ?_,
    h.namedCallees_tree, fun i hi => ?_⟩
  · change d ∈ b.diagnostics at hd
    rw [(BindM.steps_leads hbind).2.1] at hd
    obtain ⟨o, ho, hnode⟩ := Names.reportsAll_blamed hd
    exact h.blamed_mem ho hnode
  · exact Program.readNumbered_of_readTree htree
  · rw [h.mem_namedCallees, and_iff_right hi]
    constructor
    · exact fun hlast hmem => absurd (h.ids.mem hmem).2 (Nat.not_le_of_lt hlast)
    · intro hnew
      rcases mem_ids_exchangeCallees hi with hmem | ⟨site, hget⟩
      · exact absurd hmem hnew
      · exact (h.sound.fresh site i hget).1

/-- Calls in the dimensions of members of a block come up twice, and get new callees when they first
do. -/
theorem Program.consistent_of_parse_calls :
    ∃ p,
      Program.parse ("struct S \x7b int m; \x7d; uniform B \x7b float a[f(2)], c[S(k)]; \x7d; " ++
        "float f(S s) \x7b return g(S(1), h(s)); \x7d") Options.default = .ok p ∧
      p.root.namedCallees = [59, 60, 61] ∧
      p.root.ids.filter (· ∈ p.root.namedCallees) = [59, 60, 61] ∧
      p.diagnostics.map Diagnostic.node = [24, 34, 48, 55] ∧
      p.scopes.listing .types =
        [(0, "S", 7), (0, "S", 33), (0, "S", 33), (0, "S", 44), (0, "S", 53)] ∧
      p.Consistent := by
  refine Program.exists_of_parse (fun p hparse (h : _ ∧ _ ∧ _ ∧ _) =>
    ⟨hparse, h.1, h.2.1, h.2.2.1, h.2.2.2, (Program.consistent_of_parse hparse).1⟩) ?_
  decide +kernel

end ShaderSource
