import Mathlib.Data.List.Flatten
import Mathlib.Data.List.Perm.Subperm
import ShaderSource.Proofs.Completeness

/-!
# What a tree mentions

Binding goes through a tree by plans, and each of its moves mentions the identities of some nodes.
No plan goes over a part of its node twice, so that a tree mentions each of its nodes at most once;
with one exception. A block without an instance is gone over for the types of its members, and
then again for the members as variables. What stands in the dimensions of its members is mentioned
both times. Since blocks do not stand in blocks, it is not more than twice.

## Main results

* `Node.AllFit.count_regions`: plans go over parts once.
* `Node.AllFit.mentions_within`: how often a tree mentions a node.
* `Node.AllFit.mentions_twice`: what is mentioned twice.
-/

namespace ShaderSource

open List Node

/-! ### Bounds on lists of identities -/

/-- An identity is at most `w` times as often in the one list as in the other. -/
def Within (w : Nat) (i : NodeId) (mentioned ids : List NodeId) : Prop :=
  mentioned.count i ≤ w * ids.count i

namespace Within

variable {w : Nat} {i : NodeId} {mentioned mentioned' ids ids' : List NodeId}

theorem nil (ids : List NodeId) : Within w i [] ids := by
  simp [Within]

theorem mono (h : Within w i mentioned ids) (hids : ids.count i ≤ ids'.count i) :
    Within w i mentioned ids' :=
  Nat.le_trans h (Nat.mul_le_mul_left w hids)

theorem weaken {v : Nat} (h : Within v i mentioned ids) (hv : v ≤ w) :
    Within w i mentioned ids :=
  Nat.le_trans h (Nat.mul_le_mul_right _ hv)

theorem self (hw : 0 < w) (ids : List NodeId) : Within w i ids ids :=
  Nat.le_mul_of_pos_left _ hw

theorem append (h : Within w i mentioned ids) (h' : Within w i mentioned' ids') :
    Within w i (mentioned ++ mentioned') (ids ++ ids') := by
  unfold Within
  rw [count_append, count_append, Nat.mul_add]
  exact Nat.add_le_add h h'

theorem flatMap {α : Type} {l : List α} {f g : α → List NodeId}
    (h : ∀ a ∈ l, Within w i (f a) (g a)) : Within w i (l.flatMap f) (l.flatMap g) := by
  induction l with
  | nil => exact nil _
  | cons a l ih =>
    rw [flatMap_cons, flatMap_cons]
    exact (h a mem_cons_self).append (ih fun b hb => h b (mem_cons_of_mem a hb))

/-- Going over a list twice. -/
theorem flatMap_twice {α : Type} {l : List α} {f f' g : α → List NodeId}
    (h : ∀ a ∈ l, Within w i (f a ++ f' a) (g a)) :
    Within w i (l.flatMap f ++ l.flatMap f') (l.flatMap g) := by
  have hcount : (l.flatMap f ++ l.flatMap f').count i =
      (l.flatMap fun a => f a ++ f' a).count i := by
    induction l with
    | nil => rfl
    | cons a l ih =>
      have ih := ih fun b hb => h b (mem_cons_of_mem a hb)
      simp only [flatMap_cons, count_append] at ih ⊢
      omega
  unfold Within
  rw [hcount]
  exact flatMap h

end Within

/-! ### What occurrences mention -/

/-- The identities that an occurrence may add to a registry, new callees apart. -/
def Occurrence.mentions : RenameTarget → Occurrence → List NodeId
  | .vars, .declareVariable _ site => [site.id]
  | .vars, .useVariable _ site => [site.id]
  | .types, .declareType _ site => [site.id]
  | .types, .useType _ site => [site.id]
  | .types, .call _ callee _ _ => [callee.id]
  | .functions, .declareFunction _ _ site => [site.id]
  | .functions, .defineFunction _ _ site => [site.id]
  | .functions, .call _ _ _ site => [site.id]
  | _, _ => []

/-- What the occurrences of a tree mention. -/
def Node.mentions (target : RenameTarget) (role : Role) (n : Node) : List NodeId :=
  (n.occurrences role).flatMap (Occurrence.mentions target)

/-- What a move mentions. -/
def Node.mentionsBy (target : RenameTarget) (n : Node) (move : Move) : List NodeId :=
  (n.perform move).flatMap (Occurrence.mentions target)

section Mentions

variable {target : RenameTarget} {n : Node} {role : Role}

theorem Node.AllFit.mentions_eq (h : n.AllFit) (target : RenameTarget) (role : Role) :
    n.mentions target role = (n.plan role).flatMap (n.mentionsBy target) := by
  rw [mentions, h.occurrences_eq, flatMap_assoc]
  rfl

theorem Node.mentionsBy_visit (path : List Nat) :
    n.mentionsBy target (.visit path role) =
      (n.along path).flatMap (mentions target role) := by
  rw [mentionsBy, perform, flatMap_assoc]
  rfl

@[simp] theorem Node.mentionsBy_enter (name : String) : n.mentionsBy target (.enter name) = [] := by
  cases target <;> rfl

@[simp] theorem Node.mentionsBy_leave : n.mentionsBy target .leave = [] := by
  cases target <;> rfl

variable {w : Nat} {i : NodeId}

/-- Where the identities stand that a move mentions. -/
def Node.region (n : Node) : Move → List NodeId
  | .visit path _ | .declare _ path => (n.along path).flatMap Node.ids
  | .use _ => [n.id]
  | .call => n.id :: (n.along [0, 0]).flatMap Node.ids
  | .function _ => [n.id]
  | .enter _ => []
  | .leave => []

/-- A leaf that declares a name is mentioned once. -/
theorem Node.mentionsBy_declare (hw : 0 < w) (c : NameClass) (path : List Nat) :
    Within w i (n.mentionsBy target (.declare c path)) ((n.along path).flatMap Node.ids) := by
  rw [mentionsBy, perform, flatMap_map]
  refine Within.flatMap fun m _ => ?_
  rw [ids_eq]
  have hself : Within w i [m.id] (m.id :: m.children.flatMap Node.ids) :=
    (Within.self hw [m.id]).append (Within.nil (m.children.flatMap Node.ids))
  cases c <;> cases target <;> first | exact hself | exact Within.nil _

theorem Node.mentionsBy_use (hw : 0 < w) (c : NameClass) :
    Within w i (n.mentionsBy target (.use c)) [n.id] := by
  cases c <;> cases target <;> first | exact Within.self hw [n.id] | exact Within.nil _

theorem Node.mentionsBy_function (hw : 0 < w) {path : List Nat} {prototype : Node}
    (hpath : n.along path = [prototype]) :
    Within w i (n.mentionsBy target (.function path)) [n.id] := by
  have heq : n.mentionsBy target (.function path) =
      (n.functionOccurrence prototype.prototypeName prototype.prototypeSignature).mentions
        target := by
    rw [mentionsBy, perform, hpath]
    cases target <;> simp [Occurrence.mentions]
  rw [heq, functionOccurrence]
  split <;> cases target <;> first | exact Within.self hw [n.id] | exact Within.nil _

/-- A plain call mentions itself and its name. -/
theorem Node.AllFit.mentionsBy_call (h : n.AllFit) (hw : 0 < w) (hplain : n.isPlainCall = true) :
    Within w i (n.mentionsBy target .call) (n.id :: (n.along [0, 0]).flatMap Node.ids) := by
  obtain ⟨callee, t', arguments, ts, t'', heq⟩ := h.plainCall_eq hplain
  have hids : (n.along [0, 0]).flatMap Node.ids = [callee.name] := by rw [heq]; rfl
  have hcall : n.mentionsBy target .call =
      (Occurrence.call callee.token.text ⟨callee.name, callee.span⟩ (argumentCount (n.field 2))
        n.site).mentions target := by
    rw [heq]
    cases target <;> rfl
  rw [hids, hcall]
  cases target with
  | vars => exact .nil _
  | types => exact (Within.nil [n.id]).append (.self hw [callee.name])
  | functions => exact (Within.self hw [n.id]).append (.nil [callee.name])

/-- What a move mentions stands in its region. -/
theorem Node.AllFit.mentionsBy_within (h : n.AllFit) (hw : 0 < w) {move : Move}
    (hmove : move ∈ n.plan role)
    (hbelow : ∀ path role', move = .visit path role' → ∀ m ∈ n.along path,
      Within w i (m.mentions target role') m.ids) :
    Within w i (n.mentionsBy target move) (n.region move) := by
  cases move with
  | visit path role' =>
    rw [mentionsBy_visit]
    exact Within.flatMap (hbelow path role' rfl)
  | declare c path => exact mentionsBy_declare hw c path
  | use c => exact mentionsBy_use hw c
  | call => exact h.mentionsBy_call hw (call_mem_plan.mp hmove)
  | function path =>
    rcases plan_function hmove with ⟨hkind, rfl⟩ | ⟨hkind, rfl⟩
    · obtain ⟨prototype, hprototype⟩ : ∃ prototype, n.field 0 = [prototype] :=
        h.fits.exists_child (by rw [hkind]; rfl)
      exact mentionsBy_function hw (by simpa [along] using hprototype)
    · exact mentionsBy_function hw rfl
  | enter name =>
    rw [mentionsBy_enter]
    exact .nil _
  | leave =>
    rw [mentionsBy_leave]
    exact .nil _

end Mentions

/-! ### Plans go over parts once -/

/-- The parts of the node that a move goes over. -/
def Move.places : Move → List Nat
  | .visit [i] _ => [i]
  | .declare _ [i] => [i]
  | _ => []

/-- The move goes over a part of the node, or over none. -/
def Move.isLocal : Move → Bool
  | .visit [_] _ => true
  | .declare _ [_] => true
  | .enter _ => true
  | .leave => true
  | _ => false

/-- The plan goes over parts of the node, each at most once. -/
def Kind.plansLocally (role : Role) (k : Kind) : Bool :=
  (k.plan role).all Move.isLocal && decide ((k.plan role).flatMap Move.places).Nodup &&
    ((k.plan role).flatMap Move.places).all fun i => decide (i < k.form.length)

theorem Kind.plan_local (k : Kind) (role : Role) :
    k.plansLocally role = true ∨
      k = .identifier ∨ k = .typeName ∨ k = .functionDefinition ∨ k = .functionPrototype := by
  cases k <;> cases role <;> decide

section Regions

variable {n : Node} {i : NodeId}

theorem Node.region_local {move : Move} (h : move.isLocal = true) :
    n.region move = move.places.flatMap fun j => (n.field j).flatMap Node.ids := by
  unfold Move.isLocal at h
  split at h
  · simp [region, Move.places, along]
  · simp [region, Move.places, along]
  · rfl
  · rfl
  · cases h

/-- Different parts of a node have different nodes. -/
theorem Node.count_fields (places : List Nat) (hnodup : places.Nodup)
    (hrange : ∀ j ∈ places, j < n.parts.length) :
    (places.flatMap fun j => (n.field j).flatMap Node.ids).count i ≤ n.ids.count i := by
  have hsub : places ⊆ List.range n.parts.length :=
    fun j hj => mem_range.mpr (hrange j hj)
  obtain ⟨places', hperm, hsublist⟩ := hnodup.subperm hsub
  rw [← (hperm.flatMap_right _).count_eq, ids_eq, flatMap_children]
  exact Nat.le_trans ((hsublist.flatMap _).count_le i) count_le_count_cons

namespace Node.AllFit

variable (h : n.AllFit)

include h

/-- A plan that goes over parts of the node does not leave it. -/
theorem count_regions_local {role : Role}
    (hlocal : n.kind.plansLocally role = true) :
    ((n.kind.plan role).flatMap n.region).count i ≤ n.ids.count i := by
  simp only [Kind.plansLocally, Bool.and_eq_true, decide_eq_true_eq, all_eq_true] at hlocal
  obtain ⟨⟨hmoves, hnodup⟩, hrange⟩ := hlocal
  have hregions : (n.kind.plan role).flatMap n.region =
      ((n.kind.plan role).flatMap Move.places).flatMap
        fun j => (n.field j).flatMap Node.ids := by
    rw [flatMap_assoc]
    exact flatMap_congr fun move hmove => region_local (hmoves move hmove)
  rw [hregions]
  refine count_fields _ hnodup fun j hj => ?_
  rw [h.fits.length_parts]
  exact hrange j hj

/-- The nodes of a prototype are itself, its header with the result and the name, and what is in its
parameters. -/
theorem ids_prototype (hkind : n.kind = .functionPrototype) :
    ∃ header name, n.ids = n.id :: ((header :: ((n.along [0, 0]).flatMap Node.ids ++ name)) ++
      (n.along [1]).flatMap Node.ids) := by
  obtain ⟨id', span', result, name, t, parameters, ts, t', heq, -⟩ := h.prototype_eq hkind
  refine ⟨id', name.ids, ?_⟩
  rw [heq]
  simp [prototypeNode, headerNode, ids_eq, along, Part.nodes]

/-- The nodes of a definition are itself, its prototype and what is in its body. -/
theorem ids_definition (hkind : n.kind = .functionDefinition) :
    ∃ prototype : Node, prototype.AllFit ∧ prototype.kind = .functionPrototype ∧
      (∀ path, n.along (0 :: path) = prototype.along path) ∧
      n.ids = n.id :: (prototype.ids ++ (n.along [1]).flatMap Node.ids) := by
  obtain ⟨prototype, hprototype⟩ : ∃ prototype, n.field 0 = [prototype] :=
    h.fits.exists_child (by rw [hkind]; rfl)
  obtain ⟨hfit, hpkind⟩ := h.of_field (hprototype ▸ mem_singleton_self prototype)
    (by rw [hkind]; rfl)
  refine ⟨prototype, hfit, hpkind, fun path => by rw [along, hprototype, flatMap_singleton], ?_⟩
  rw [ids_eq, flatMap_children, h.fits.length_parts, hkind]
  simp [Kind.form, range_succ, hprototype, along]

theorem count_regions_prototype (hkind : n.kind = .functionPrototype)
    (role : Role) :
    ((n.kind.plan role).flatMap n.region).count i ≤ n.ids.count i := by
  obtain ⟨header, name, hids⟩ := h.ids_prototype hkind
  rw [hids, hkind]
  simp only [Kind.plan, flatMap_cons, flatMap_nil, region, append_nil, count_append, count_cons,
    count_nil]
  omega

theorem count_regions_definition (hkind : n.kind = .functionDefinition) (role : Role) :
    ((n.kind.plan role).flatMap n.region).count i ≤ n.ids.count i := by
  obtain ⟨prototype, hfit, hpkind, hpath, hids⟩ := h.ids_definition hkind
  -- The prototype is gone over as if it stood alone, but for the function it registers.
  have hregions := hfit.count_regions_prototype (i := i) hpkind role
  rw [hpkind] at hregions
  rw [hids, hkind]
  simp only [Kind.plan, flatMap_cons, flatMap_nil, region, hpath, append_nil, count_append,
    count_cons, count_nil] at hregions ⊢
  omega

/-- The identities below a plain call: those of its callee, and those of its arguments. -/
theorem ids_plainCall (hplain : n.isPlainCall = true) :
    ∃ callee : PlainCallee, (n.along [0, 0]).flatMap Node.ids = [callee.name] ∧
      n.ids = n.id :: callee.id :: callee.name :: (n.along [2]).flatMap Node.ids := by
  obtain ⟨callee, t', arguments, ts, t'', heq⟩ := h.plainCall_eq hplain
  rw [heq]
  exact ⟨callee, rfl, by simp [PlainCallee.node, ids_eq, along, Part.nodes]⟩

theorem count_regions_call (hplain : n.isPlainCall = true)
    (role : Role) :
    ((n.plan role).flatMap n.region).count i ≤ n.ids.count i := by
  obtain ⟨callee, hname, hids⟩ := h.ids_plainCall hplain
  rw [plan, if_pos hplain, hids]
  simp only [flatMap_cons, flatMap_nil, region, hname, append_nil, count_append, count_cons,
    count_nil]
  omega

/-- No plan goes over a part twice, but that of a block without an instance. -/
theorem count_regions (hopen : n.isOpenBlock = false) (role : Role) :
    ((n.plan role).flatMap n.region).count i ≤ n.ids.count i := by
  rcases n.plan_cases role with ⟨hplain, -⟩ | ⟨hblock, -⟩ | ⟨-, -, hplan⟩
  · exact h.count_regions_call hplain role
  · rw [hopen] at hblock
    cases hblock
  · rw [hplan]
    have hleaf : n.kind.plan role = [.use .var] ∨ n.kind.plan role = [.use .type] →
        ((n.kind.plan role).flatMap n.region).count i ≤ n.ids.count i := by
      rintro (heq | heq)
      all_goals
        rw [heq, ids_eq]
        simp only [flatMap_cons, flatMap_nil, region, append_nil,
          count_cons, count_nil]
        omega
    rcases n.kind.plan_local role with hlocal | hkind | hkind | hkind | hkind
    · exact h.count_regions_local hlocal
    · exact hleaf (.inl (by rw [hkind]; rfl))
    · exact hleaf (.inr (by rw [hkind]; rfl))
    · exact h.count_regions_definition hkind role
    · exact h.count_regions_prototype hkind role

end Node.AllFit

end Regions

/-! ### Blocks without instances -/

/-- What stands below an interface block: qualifiers, members, types and expressions. -/
def Kind.belowBlocks : List Kind :=
  [.keyword, .layoutQualifier, .layoutQualifierId, .structDeclaration, .quantifiedIdentifier,
    .fullySpecifiedType, .typeSpecifier, .typeName, .structSpecifier, .arraySpecifier,
    .postfixOperator, .fieldSelection] ++ Kind.expressions

/-- Whether a node of the kind may stand below an interface block. -/
def Kind.isBelowBlocks (k : Kind) : Bool :=
  Kind.belowBlocks.contains k

theorem Kind.isBelowBlocks_form (k : Kind) (h : k.isBelowBlocks = true ∨ k = .interfaceBlock) :
    (k.form.all fun f => f.kinds.all Kind.isBelowBlocks) = true := by
  cases k <;> first | rfl | exact absurd h (by decide)

section Blocks

variable {n m : Node}

/-- What is below a block, or below what may be there. -/
theorem Node.AllFit.isBelowBlocks_child (h : n.AllFit)
    (hkind : n.kind.isBelowBlocks = true ∨ n.kind = .interfaceBlock) (hm : m ∈ n.children) :
    m.kind.isBelowBlocks = true := by
  obtain ⟨f, hf, hmem⟩ := h.fits.kind_mem hm
  have hform := all_eq_true.mp (n.kind.isBelowBlocks_form hkind) f hf
  exact all_eq_true.mp hform _ hmem

theorem Node.AllFit.isBelowBlocks (h : n.AllFit) (hkind : n.kind.isBelowBlocks = true)
    (hm : m ∈ n.preorder) : m.kind.isBelowBlocks = true :=
  topDown hkind (fun _ hn' hkind' _ hc =>
    (h.below hn').isBelowBlocks_child (.inl hkind') hc) hm

/-- The identities in the dimensions of the members of a block. -/
def Node.memberDimensions (block : Node) : List NodeId :=
  (block.along [3, 1, 1]).flatMap Node.ids

/-- The identities in the dimensions of members of blocks without instances: these are gone over
twice. -/
def Node.revisited (n : Node) : List NodeId :=
  (n.preorder.filter isOpenBlock).flatMap memberDimensions

theorem Node.mem_revisited {i : NodeId} :
    i ∈ n.revisited ↔
      ∃ block ∈ n.preorder, block.isOpenBlock = true ∧ i ∈ block.memberDimensions := by
  simp [revisited, and_assoc]

theorem Node.revisited_below (hm : m ∈ n.preorder) : m.revisited ⊆ n.revisited := by
  intro i hi
  obtain ⟨block, hblock, h⟩ := mem_revisited.mp hi
  exact mem_revisited.mpr ⟨block, mem_preorder_trans hm hblock, h⟩

/-- Blocks do not stand in blocks. -/
theorem Node.AllFit.revisited_eq_nil (h : n.AllFit) (hkind : n.kind.isBelowBlocks = true) :
    n.revisited = [] := by
  refine eq_nil_iff_forall_not_mem.mpr fun i hi => ?_
  obtain ⟨block, hblock, hopen, -⟩ := mem_revisited.mp hi
  have hbelow := h.isBelowBlocks hkind hblock
  rw [(isOpenBlock_iff.mp hopen).1] at hbelow
  cases hbelow

variable {target : RenameTarget} {role : Role} {i : NodeId}

/-- What two parts of a node mention, the second of them gone over twice. -/
theorem Node.Fits.within_parts {w : Nat} (h : n.Fits) {j k : Nat} (hne : j ≠ k)
    (hj : j < n.kind.form.length) (hk : k < n.kind.form.length) {first second : List NodeId}
    (hfirst : Within w i first ((n.field j).flatMap Node.ids))
    (hsecond : Within w i second ((n.field k).flatMap Node.ids)) :
    Within w i (first ++ second) n.ids := by
  have hcount := count_fields (n := n) (i := i) [j, k] (by simp [hne]) (by
    rw [h.length_parts]
    simp [hj, hk])
  simp only [flatMap_cons, flatMap_nil, append_nil] at hcount
  exact (hfirst.append hsecond).mono hcount

namespace Node.AllFit

variable (h : n.AllFit)

include h

theorem mentions_asMember (hkind : n.kind = .quantifiedIdentifier) :
    n.mentions target .member = (n.field 1).flatMap (mentions target .plain) := by
  rw [h.mentions_eq, plan_of_kind (by simp [hkind]) (by simp [hkind]), hkind]
  simp [Kind.plan, mentionsBy_visit, along]

theorem mentions_asVariable (hkind : n.kind = .quantifiedIdentifier) :
    n.mentions target .plain =
      (n.field 1).flatMap (mentions target .plain) ++
        n.mentionsBy target (.declare .var [0]) := by
  rw [h.mentions_eq, plan_of_kind (by simp [hkind]) (by simp [hkind]), hkind]
  simp [Kind.plan, mentionsBy_visit, along]

theorem mentions_structDeclaration (hkind : n.kind = .structDeclaration) :
    n.mentions target .plain =
      (n.field 0).flatMap (mentions target .plain) ++
        (n.field 1).flatMap (mentions target .member) := by
  rw [h.mentions_eq, plan_of_kind (by simp [hkind]) (by simp [hkind]), hkind]
  simp [Kind.plan, mentionsBy_visit, along]

/-- A block without an instance is gone over for the types of its members, and then for the members
as variables. -/
theorem mentions_block (hopen : n.isOpenBlock = true) :
    n.mentions target role =
      (n.field 0).flatMap (mentions target .plain) ++
        ((n.field 3).flatMap (mentions target .plain) ++
          (n.field 3).flatMap fun d => (d.field 1).flatMap (mentions target .plain)) := by
  have hplain : n.isPlainCall = false := by
    simp [isPlainCall, (isOpenBlock_iff.mp hopen).1]
  rw [h.mentions_eq, plan, hplain, hopen]
  simp [mentionsBy_visit, along, flatMap_assoc]

/-- What a member of a block mentions, once for its type and once more as a variable. -/
theorem mentions_member (hkind : n.kind = .quantifiedIdentifier)
    {R : List NodeId} (hR : (n.field 1).flatMap Node.ids ⊆ R)
    (hbelow : ∀ c ∈ n.children, Within 1 i (c.mentions target .plain) c.ids) :
    Within (if i ∈ R then 2 else 1) i (n.mentions target .member ++ n.mentions target .plain)
      n.ids := by
  have hdimensions : Within 1 i ((n.field 1).flatMap (mentions target .plain))
      ((n.field 1).flatMap Node.ids) :=
    Within.flatMap fun c hc => hbelow c (mem_children_iff.mpr ⟨1, hc⟩)
  have hname : Within 1 i (n.mentionsBy target (.declare .var [0]))
      ((n.field 0).flatMap Node.ids) := by
    simpa [along] using mentionsBy_declare Nat.one_pos .var [0] (n := n)
  have hids := count_fields (n := n) (i := i) [0, 1] (by simp) (by
    rw [h.fits.length_parts, hkind]
    decide)
  simp only [flatMap_cons, flatMap_nil, append_nil, count_append] at hids
  rw [h.mentions_asMember hkind, h.mentions_asVariable hkind]
  unfold Within at *
  simp only [count_append]
  split
  · omega
  · -- What is not gone over twice is not in the dimensions.
    rename_i hnot
    have hnone : ((n.field 1).flatMap Node.ids).count i = 0 :=
      count_eq_zero.mpr fun hmem => hnot (hR hmem)
    omega

/-- What a block without an instance mentions. -/
theorem mentions_openBlock (hopen : n.isOpenBlock = true)
    {R : List NodeId} (hR : n.memberDimensions ⊆ R)
    (hbelow : ∀ c ∈ n.children, ∀ m ∈ c.preorder, ∀ role,
      Within 1 i (m.mentions target role) m.ids) :
    Within (if i ∈ R then 2 else 1) i (n.mentions target role) n.ids := by
  have hw : 1 ≤ if i ∈ R then 2 else 1 := by split <;> decide
  obtain ⟨hkind, -⟩ := isOpenBlock_iff.mp hopen
  have hqualifiers : Within (if i ∈ R then 2 else 1) i
      ((n.field 0).flatMap (mentions target .plain)) ((n.field 0).flatMap Node.ids) :=
    Within.flatMap fun c hc => (hbelow c (mem_children_iff.mpr ⟨0, hc⟩) c
      c.mem_preorder_self .plain).weaken hw
  have hmembers : Within (if i ∈ R then 2 else 1) i
      ((n.field 3).flatMap (mentions target .plain) ++
        (n.field 3).flatMap fun d => (d.field 1).flatMap (mentions target .plain))
      ((n.field 3).flatMap Node.ids) := by
    refine Within.flatMap_twice fun d hd => ?_
    have hdchild : d ∈ n.children := mem_children_iff.mpr ⟨3, hd⟩
    obtain ⟨hdfit, hdkind⟩ := h.of_field hd (by rw [hkind]; rfl)
    have hdbelow : ∀ c ∈ d.children, ∀ m ∈ c.preorder, ∀ role,
        Within 1 i (m.mentions target role) m.ids := fun c hc m hm =>
      hbelow d hdchild m (mem_preorder_of_mem_child hc hm)
    rw [hdfit.mentions_structDeclaration hdkind, append_assoc]
    refine hdfit.fits.within_parts (j := 0) (k := 1) (by decide) (by rw [hdkind]; decide)
      (by rw [hdkind]; decide) ?_ ?_
    · exact Within.flatMap fun c hc => (hdbelow c (mem_children_iff.mpr ⟨0, hc⟩) c
        c.mem_preorder_self .plain).weaken hw
    · refine Within.flatMap_twice fun q hq => ?_
      have hqchild : q ∈ d.children := mem_children_iff.mpr ⟨1, hq⟩
      obtain ⟨hqfit, hqkind⟩ := hdfit.of_field hq (by rw [hdkind]; rfl)
      refine hqfit.mentions_member hqkind (fun j hj => hR ?_) fun c hc =>
        hdbelow q hqchild c (child_mem_preorder hc) .plain
      obtain ⟨x, hx, hj⟩ := mem_flatMap.mp hj
      refine mem_flatMap.mpr ⟨x, ?_, hj⟩
      simpa [along] using ⟨d, hd, q, hq, hx⟩
  rw [h.mentions_block hopen]
  exact h.fits.within_parts (j := 0) (k := 3) (by decide) (by rw [hkind]; decide)
    (by rw [hkind]; decide) hqualifiers hmembers

/-- A dimension of a member stands in a member of a declaration of members. -/
theorem of_dimension (hopen : n.isOpenBlock = true) {x : Node} (hx : x ∈ n.along [3, 1, 1]) :
    x.kind = .arraySpecifier ∧ ∃ d ∈ n.field 3, (d.AllFit ∧ d.kind = .structDeclaration) ∧
      ∃ q ∈ d.field 1, (q.AllFit ∧ q.kind = .quantifiedIdentifier) ∧ x ∈ q.field 1 := by
  obtain ⟨d, hd, q, hq, hx⟩ : ∃ d ∈ n.field 3, ∃ q ∈ d.field 1, x ∈ q.field 1 := by
    simpa [along] using hx
  have hdfit := h.of_field hd (by rw [(isOpenBlock_iff.mp hopen).1]; rfl)
  have hqfit := hdfit.1.of_field hq (by rw [hdfit.2]; rfl)
  exact ⟨(hqfit.1.of_field hx (by rw [hqfit.2]; rfl)).2, d, hd, hdfit, q, hq, hqfit, hx⟩

/-- What is mentioned in the dimensions of a member is mentioned twice. -/
theorem mentions_twice (hopen : n.isOpenBlock = true) {x : Node}
    (hx : x ∈ n.along [3, 1, 1]) (hi : i ∈ x.mentions target .plain) (role : Role) :
    2 ≤ (n.mentions target role).count i := by
  obtain ⟨-, d, hd, ⟨hdfit, hdkind⟩, q, hq, ⟨hqfit, hqkind⟩, hx⟩ := h.of_dimension hopen hx
  have hdimension : i ∈ (q.field 1).flatMap (mentions target .plain) :=
    mem_flatMap.mpr ⟨x, hx, hi⟩
  have hfirst : i ∈ (n.field 3).flatMap (mentions target .plain) := by
    refine mem_flatMap.mpr ⟨d, hd, ?_⟩
    rw [hdfit.mentions_structDeclaration hdkind]
    refine mem_append_right _ (mem_flatMap.mpr ⟨q, hq, ?_⟩)
    rwa [hqfit.mentions_asMember hqkind]
  have hsecond : i ∈ (n.field 3).flatMap
      fun d => (d.field 1).flatMap (mentions target .plain) := by
    refine mem_flatMap.mpr ⟨d, hd, mem_flatMap.mpr ⟨q, hq, ?_⟩⟩
    rw [hqfit.mentions_asVariable hqkind]
    exact mem_append_left _ hdimension
  rw [h.mentions_block hopen, count_append, count_append]
  have hfirst' := count_pos_iff.mpr hfirst
  have hsecond' := count_pos_iff.mpr hsecond
  omega

/-- A tree mentions what it has once, and twice what stands in the dimensions of members of blocks
without instances. -/
theorem mentions_within {R : List NodeId} (hR : n.revisited ⊆ R)
    (target : RenameTarget) (role : Role) (i : NodeId) :
    Within (if i ∈ R then 2 else 1) i (n.mentions target role) n.ids := by
  induction n using strongInduction generalizing role R with
  | h n ih =>
    have hbelow : ∀ c ∈ n.children, ∀ m ∈ c.preorder, ∀ (R' : List NodeId) (role' : Role),
        m.revisited ⊆ R' → Within (if i ∈ R' then 2 else 1) i (m.mentions target role') m.ids :=
      fun c hc m hm R' role' hR' =>
        ih c hc m hm (h.below (mem_preorder_of_mem_child hc hm)) hR' role'
    cases hopen : n.isOpenBlock with
    | true =>
      refine h.mentions_openBlock hopen (fun j hj => hR ?_) fun c hc m hm role' => ?_
      · exact mem_revisited.mpr ⟨n, n.mem_preorder_self, hopen, hj⟩
      · -- There are no blocks in the block.
        have hkind := (isOpenBlock_iff.mp hopen).1
        have hc' := h.child hc
        have hinner := hc'.isBelowBlocks (h.isBelowBlocks_child (.inr hkind) hc) hm
        have hnone := (hc'.below hm).revisited_eq_nil hinner
        simpa using hbelow c hc m hm [] role' (by simp [hnone])
    | false =>
      rw [h.mentions_eq]
      refine (Within.flatMap fun move hmove => ?_).mono (h.count_regions hopen role)
      refine h.mentionsBy_within (by split <;> decide) hmove fun path role' hvisit m hm => ?_
      have hpath : path ≠ [] := by
        rintro rfl
        subst hvisit
        exact n.visit_nil_not_mem_plan hmove
      obtain ⟨j, path, rfl⟩ := exists_cons_of_ne_nil hpath
      obtain ⟨c, hc, hmc⟩ := mem_flatMap.mp hm
      have hc' : c ∈ n.children := mem_children_iff.mpr ⟨j, hc⟩
      exact hbelow c hc' m (mem_along hmc) R role' fun k hk =>
        hR (revisited_below (mem_preorder_of_mem_child hc' (mem_along hmc)) hk)

end Node.AllFit

end Blocks

end ShaderSource
