import ShaderSource.Proofs.Walking

/-!
# Edits in an ordered map

`Node.patch` parts the edits of a node by their first steps. The same tree comes out of an ordered
map from whole addresses to edits, which is asked two things about each node: whether there is an
edit at its address, and whether there is one below. The second question looks at a single entry:
the addresses below a node follow its own one without a gap, so the first entry that does not come
before the address is below it if any is.

## Main results

* `EditMap.hasUnder_iff`: one entry tells whether there are edits below an address.
* `Node.visit_applies`: a visit applies the ordered map of the edits that its walk gathers.
-/

namespace ShaderSource

open Edits List Std

/-- Steps are ordered by slots, and within a slot by indices. -/
instance : Ord Step :=
  ⟨compareLex (compareOn Step.slot) (compareOn Step.index)⟩

instance : TransOrd Step :=
  inferInstanceAs (TransCmp (compareLex (compareOn Step.slot) (compareOn Step.index)))

instance : LawfulEqOrd Step where
  eq_of_compare {s t} h := by
    obtain ⟨hslot, hindex⟩ := Ordering.then_eq_eq.mp h
    cases s
    cases t
    exact congrArg₂ Step.mk (Std.compare_eq_iff_eq.mp hslot) (Std.compare_eq_iff_eq.mp hindex)

/-- Edits by the addresses of the nodes that they change, in the order of the addresses. -/
abbrev EditMap := TreeMap Address Edit

variable {m : EditMap} {es : Edits} {a b f : Address} {s t : Step} {σ : Type}

/-! ### Queries -/

namespace EditMap

/-- Whether there is an edit at the address or below it: the first entry that does not come before
the address tells. -/
def hasUnder (m : EditMap) (a : Address) : Bool :=
  (m.toList.find? fun x => compare x.1 a != .lt).any fun x => a <+: x.1

theorem compare_cons : compare (s :: a) (t :: b) = (compare s t).then (compare a b) :=
  List.compareLex_cons_cons

theorem compare_append_ne : compare (a ++ b) a ≠ .lt := by
  induction a with
  | nil => cases b <;> exact nofun
  | cons s a ih => rwa [cons_append, compare_cons, compare_self, Ordering.eq_then]

/-- What lies between an address and one below it is below the address. -/
theorem prefix_of_between (h : compare f a ≠ .lt) (h' : compare (a ++ b) f ≠ .lt) : a <+: f := by
  induction a generalizing f with
  | nil => exact nil_prefix
  | cons s a ih =>
    cases f with
    | nil => exact absurd rfl h
    | cons t f =>
      rw [cons_append] at h'
      rw [compare_cons, Ne, Ordering.then_eq_lt, not_or, not_and] at h h'
      cases hcompare : compare t s with
      | lt => exact absurd hcompare h.1
      | gt => exact absurd (OrientedCmp.lt_of_gt hcompare) h'.1
      | eq =>
        obtain rfl := Std.compare_eq_iff_eq.mp hcompare
        exact cons_prefix_cons.mpr ⟨rfl, ih (h.2 compare_self) (h'.2 compare_self)⟩

/-- One entry tells whether there are edits at an address or below it. -/
theorem hasUnder_iff : m.hasUnder a = true ↔ ∃ b e, m[a ++ b]? = some e := by
  simp only [← TreeMap.mem_toList_iff_getElem?_eq_some]
  constructor
  · intro hunder
    obtain ⟨⟨_, e⟩, hfind, hx⟩ := (Option.any_eq_true _ _).mp hunder
    obtain ⟨b, rfl⟩ := of_decide_eq_true hx
    exact ⟨b, e, mem_of_find?_eq_some hfind⟩
  · rintro ⟨b, e, hmem⟩
    obtain ⟨x, hfind⟩ : ∃ x, m.toList.find? (fun x => compare x.1 a != .lt) = some x := by
      rw [← Option.isSome_iff_exists, find?_isSome]
      exact ⟨_, hmem, by simp [compare_append_ne]⟩
    -- The query does not go past the entry below the address.
    obtain ⟨hxa, before, after, hlist, hbefore⟩ := find?_eq_some_iff_append.mp hfind
    have hxb : compare (a ++ b) x.1 ≠ .lt := by
      have hordered := TreeMap.ordered_keys_toList (t := m)
      rw [hlist] at hmem hordered
      rcases mem_append.mp hmem with hmem | hmem
      · have hpast := hbefore _ hmem
        simp [compare_append_ne] at hpast
      · rcases mem_cons.mp hmem with rfl | hmem
        · simp [compare_self]
        · have hlt := (pairwise_cons.mp (pairwise_append.mp hordered).2.1).1 _ hmem
          simp [OrientedCmp.gt_of_lt hlt]
    rw [hasUnder, hfind, Option.any_some, decide_eq_true_iff]
    exact prefix_of_between (by simpa using hxa) hxb

/-- The edits are those of the map at the address and below it, with addresses that start there. -/
def View (m : EditMap) (a : Address) (es : Edits) : Prop :=
  ∀ b e, m[a ++ b]? = some e ↔ (b, e) ∈ es

namespace View

variable (h : m.View a es)

include h

theorem below (step : Step) : m.View (a ++ [step]) (es.below step) := by
  intro b e
  rw [mem_below, ← h, append_assoc, singleton_append]

theorem isEmpty : es.isEmpty = !m.hasUnder a := by
  have hunder : m.hasUnder a = true ↔ ∃ b e, (b, e) ∈ es := hasUnder_iff.trans (exists₂_congr h)
  cases es with
  | nil => simpa using hunder
  | cons x es => simp [hunder.mpr ⟨x.1, x.2, mem_cons_self⟩]

theorem here? : es.here? = m[a]? := by
  have hmem : ∀ e, ([], e) ∈ es ↔ m[a]? = some e := fun e => by rw [← h, append_nil]
  cases hhere : es.here? with
  | some e => exact ((hmem e).mp (mem_of_here? hhere)).symm
  | none =>
    refine (Option.eq_none_iff_forall_ne_some.mpr fun e he => ?_).symm
    have hnone := findSome?_eq_none_iff.mp hhere _ ((hmem e).mpr he)
    simp at hnone

end View

end EditMap

/-! ### Application -/

mutual

/-- What becomes of a node at an address through the edits of a map; none if it is removed. -/
def Node.applied (m : EditMap) (a : Address) : Node → Option Node
  | .mk kind id span parts =>
    match m[a]? with
    | some (.replace n) => some n
    | some .remove => none
    | none => some (.mk kind id span (if m.hasUnder a then Part.applyAll m a 0 parts else parts))

/-- The parts of the node at an address after the edits; the next slot has the given index. -/
def Part.applyAll (m : EditMap) (a : Address) (slot : Nat) : List Part → List Part
  | [] => []
  | p :: ps =>
    p.apply m a slot :: Part.applyAll m a (if p.slot?.isSome then slot + 1 else slot) ps

/-- A part of the node at an address after the edits, where it has the given index among the
slots. -/
def Part.apply (m : EditMap) (a : Address) (slot : Nat) : Part → Part
  | .text s => .text s
  | .token t => .token t
  | .optToken t => .optToken t
  | .child n => .child ((n.applied m (a ++ [⟨slot, 0⟩])).getD n)
  | .optChild none => .optChild none
  | .optChild (some n) => .optChild (n.applied m (a ++ [⟨slot, 0⟩]))
  | .list ns => .list ((Node.appliedAll m a slot 0 ns).map Prod.snd)
  | .separated ns separators =>
    let kept := Node.appliedAll m a slot 0 ns
    .separated (kept.map Prod.snd) (keptSeparators ns.length separators (kept.map Prod.fst))
  | .branch word none => .branch word none
  | .branch word (some n) => .branch word (n.applied m (a ++ [⟨slot, 0⟩]))

/-- The nodes of a list that the edits leave there, each with the index it had. -/
def Node.appliedAll (m : EditMap) (a : Address) (slot index : Nat) : List Node → List (Nat × Node)
  | [] => []
  | n :: ns =>
    ((n.applied m (a ++ [⟨slot, index⟩])).map fun n => (index, n)).toList ++
      Node.appliedAll m a slot (index + 1) ns

end

/-- The tree after the edits of a map. -/
def Node.apply (m : EditMap) : Node → Node
  | .mk kind id span parts =>
    .mk kind id span (if m.isEmpty then parts else Part.applyAll m [] 0 parts)

mutual

theorem Node.applied_eq {a : Address} {es : Edits} (h : m.View a es) :
    ∀ n : Node, n.applied m a = n.patched es
  | .mk kind id span parts => by
    rw [Node.applied, Node.patched, h.here?, h.isEmpty, Part.applyAll_eq h 0 parts]
    cases m.hasUnder a <;> rfl

theorem Part.applyAll_eq {a : Address} {es : Edits} (h : m.View a es) (slot : Nat) :
    ∀ ps, Part.applyAll m a slot ps = Part.patchAll es slot ps
  | [] => by rw [Part.applyAll, Part.patchAll]
  | p :: ps => by rw [Part.applyAll, Part.patchAll, Part.apply_eq h slot p, Part.applyAll_eq h _ ps]

theorem Part.apply_eq {a : Address} {es : Edits} (h : m.View a es) (slot : Nat) :
    ∀ p : Part, p.apply m a slot = p.patch es slot
  | .text _ | .token _ | .optToken _ | .optChild none | .branch _ none => by
    rw [Part.apply, Part.patch]
  | .child n | .optChild (some n) | .branch _ (some n) => by
    rw [Part.apply, Part.patch, Node.applied_eq (h.below _) n]
  | .list ns | .separated ns _ => by
    rw [Part.apply, Part.patch, Node.appliedAll_eq h slot 0 ns]

theorem Node.appliedAll_eq {a : Address} {es : Edits} (h : m.View a es) (slot index : Nat) :
    ∀ ns, Node.appliedAll m a slot index ns = Node.patchedAll es slot index ns
  | [] => by rw [Node.appliedAll, Node.patchedAll]
  | n :: ns => by
    rw [Node.appliedAll, Node.patchedAll, Node.applied_eq (h.below _) n,
      Node.appliedAll_eq h slot (index + 1) ns]

end

/-! ### The edits of a walk -/

namespace Edits

/-- Edits of different nodes are all in the map into which they are put one after the other. -/
theorem Distinct.view (h : es.Distinct) : EditMap.View (.ofList es) [] es := by
  have hcompare : es.Pairwise fun x y => ¬compare x.1 y.1 = .eq :=
    h.imp fun hne => mt Std.compare_eq_iff_eq.mp hne
  have hget : ∀ b e, (b, e) ∈ es → (TreeMap.ofList es)[b]? = some e := fun b e =>
    TreeMap.getElem?_ofList_of_mem compare_self hcompare
  refine fun b e => ⟨fun hsome => ?_, hget b e⟩
  by_cases hkey : b ∈ es.map Prod.fst
  · obtain ⟨⟨_, e'⟩, hmem, rfl⟩ := mem_map.mp hkey
    obtain rfl : e' = e := Option.some.inj ((hget _ _ hmem).symm.trans hsome)
    exact hmem
  · have hnone : (TreeMap.ofList es)[b]? = none :=
      TreeMap.getElem?_ofList_of_contains_eq_false (by simpa using hkey)
    cases hnone.symm.trans hsome

end Edits

/-- Applying a map is patching with the edits that were put into it. -/
theorem Node.apply_ofList (h : es.Distinct) (root : Node) :
    root.apply (.ofList es) = root.patch es := by
  obtain ⟨kind, id, span, parts⟩ := root
  rw [Node.apply, Node.patch, TreeMap.isEmpty_ofList, Part.applyAll_eq h.view]

/-- A visit applies the map into which its walk puts the edits one after the other. -/
theorem Node.visit_applies {v : Visitor σ} {root : Node} {s s' : σ}
    (h : (root.walk v [] none).run.run s = (.ok es, s')) :
    (root.visit v s).result = .ok (root.apply (.ofList es)) := by
  rw [Node.apply_ofList (Node.walk_distinct v root _ _ _ _ _ h)]
  exact (Node.visit_of_walk h).1

end ShaderSource
