import ShaderSource.Proofs.Steps

/-!
# What scopes list

All references that the scopes of a program list in their registries, gathered into one list. A
step of binding adds to it what its occurrence says, at most one reference, with the scope in which
the name is registered; a run adds up what its steps add. Since the lists are permutations of each
other, this tells how often a node is listed, and that nothing that was listed gets lost.

Entries are changed in place, so this rests on scopes having their indices as identities, and on
functions being kept under the texts of their signatures: binding never puts one function in the
place of another.

## Main results

* `ScopeTree.declare_eq`, `ScopeTree.Valid.use_eq`: declarations and uses record a name in a scope.
* `Names.Valid.step`: scopes stay as binding makes them.
* `Names.Valid.listing_step`, `Names.Valid.listing_foldl`: what a step and a run list.
* `Names.Sound.foldl`: all that is registered comes from occurrences, and new callees are fresh.
-/

namespace ShaderSource

open List Option Registry ScopeTree

variable {target : RenameTarget} {f : Scope → Scope} {c : NameClass} {name : String} {node : NodeId}
  {os : Overloads}

/-! ### Listings -/

/-- The references that a scope lists in a registry, with their names. -/
def Scope.listing (s : Scope) (target : RenameTarget) : List (String × NodeId) :=
  (s.references target).flatMap fun e => e.2.map fun i => (e.1, i)

/-- The references that all scopes list in a registry, with their scopes and names. -/
def ScopeTree.listing (t : ScopeTree) (target : RenameTarget) : List (ScopeId × String × NodeId) :=
  t.scopes.flatMap fun s => (s.listing target).map fun e => (s.id, e)

theorem Scope.refers_iff_listing {s : Scope} {x : String} {i : NodeId} :
    s.Refers target x i ↔ (x, i) ∈ s.listing target := by
  simp [Scope.Refers, Scope.listing]

theorem ScopeTree.refers_iff_listing {t : ScopeTree} {x : String} {i : NodeId} :
    t.Refers target x i ↔ ∃ j, (j, x, i) ∈ t.listing target := by
  simp [Refers, listing, Scope.refers_iff_listing]

/-- Scopes as binding makes them. -/
structure ScopeTree.Valid (t : ScopeTree) : Prop where
  nonempty : 0 < t.size
  ids : ∀ {i s}, t.get? i = some s → s.id = i
  parents : ∀ {i s p}, t.get? i = some s → s.parent = some p → p < i
  /-- Functions are registered in the outermost scope. -/
  functions : ∀ {i s}, t.get? i = some s → i ≠ 0 → s.functions = []
  keyed : ∀ name, (t.overloads name).Keyed

namespace ScopeTree

variable {t : ScopeTree} {target : RenameTarget} {i j : ScopeId} {s : Scope}

theorem get?_modify (t : ScopeTree) (j : ScopeId) (f : Scope → Scope) (i : ScopeId) :
    (t.modify j f).get? i = (t.get? i).map fun s => if j = i then f s else s := by
  unfold get? modify
  rw [getElem?_modify]
  by_cases h : j = i <;> simp [h]

theorem size_modify (t : ScopeTree) (j : ScopeId) (f : Scope → Scope) :
    (t.modify j f).size = t.size := by
  simp [size, modify]

theorem lt_size_of_get? (h : t.get? i = some s) : i < t.size :=
  (List.getElem?_eq_some_iff.mp h).1

theorem exists_get?_of_lt (h : i < t.size) : ∃ s, t.get? i = some s :=
  ⟨_, getElem?_eq_getElem h⟩

theorem get?_zero (h : 0 < t.size) : t.get? 0 = some t.root := by
  obtain ⟨scopes⟩ := t
  cases scopes with
  | nil => cases h
  | cons s rest => rfl

/-- A scope from which more is gathered. -/
theorem flatMap_modify {β : Type} (hget : t.get? j = some s) {g : Scope → List β} {xs : List β}
    (h : (g (f s)).Perm (xs ++ g s)) :
    ((t.modify j f).scopes.flatMap g).Perm (xs ++ t.scopes.flatMap g) := by
  obtain ⟨scopes⟩ := t
  change scopes[j]? = some s at hget
  unfold modify
  dsimp only
  induction scopes generalizing j with
  | nil => cases hget
  | cons s₀ rest ih =>
    cases j with
    | zero =>
      obtain rfl : s₀ = s := by simpa using hget
      simpa using h.append_right (rest.flatMap g)
    | succ j =>
      rw [modify_succ_cons, flatMap_cons, flatMap_cons]
      exact ((ih (by simpa using hget)).append_left _).trans
        (perm_append_comm_assoc _ _ _)

/-- A scope that lists one thing more. -/
theorem listing_modify (hget : t.get? j = some s) (hid : (f s).id = s.id) {x : String × NodeId}
    (h : ((f s).listing target).Perm (x :: s.listing target)) :
    ((t.modify j f).listing target).Perm ((s.id, x) :: t.listing target) := by
  have hmap : (((f s).listing target).map fun e => ((f s).id, e)).Perm
      ([(s.id, x)] ++ (s.listing target).map fun e => (s.id, e)) := by
    rw [hid]
    exact h.map _
  exact flatMap_modify (g := fun s => (s.listing target).map fun e => (s.id, e)) hget hmap

/-- A scope that lists the same. -/
theorem listing_modify_same (hid : ∀ s, (f s).id = s.id)
    (h : ∀ s, (f s).listing target = s.listing target) (t : ScopeTree) (j : ScopeId) :
    (t.modify j f).listing target = t.listing target := by
  obtain ⟨scopes⟩ := t
  unfold listing modify
  dsimp only
  induction scopes generalizing j with
  | nil => rw [modify_nil]
  | cons s₀ rest ih =>
    cases j with
    | zero => simp [hid, h]
    | succ j => rw [modify_succ_cons, flatMap_cons, flatMap_cons, ih]

/-! ### Recording names -/

/-- The scope in which a use of a name is registered. -/
def resolve (t : ScopeTree) (c : NameClass) (i : ScopeId) (name : String) : ScopeId :=
  ((t.lookup c i name).map fun e => e.1.id).getD i

/-- The scopes with the entry of a name in one of them changed, where there may be none yet. -/
def record (t : ScopeTree) (c : NameClass) (j : ScopeId) (name : String) (g : Entry → Entry) :
    ScopeTree :=
  t.modifyEntries j c fun r => r.insert name (g ((r.get? name).getD ⟨none, []⟩))

theorem modify_congr {g : Scope → Scope} (h : ∀ s, t.get? j = some s → f s = g s) :
    t.modify j f = t.modify j g := by
  obtain ⟨scopes⟩ := t
  unfold modify
  congr 1
  refine ext_getElem? fun i => ?_
  rw [getElem?_modify, getElem?_modify]
  by_cases hij : j = i
  · subst hij
    cases hget : scopes[j]? with
    | none => rfl
    | some s => simp [h s hget]
  · simp [hij]

theorem declare_eq (t : ScopeTree) (c : NameClass) (i : ScopeId) (name : String) (node : NodeId) :
    (t.declare c i name node).1 = t.record c i name fun e => e.declare node := by
  unfold declare record modifyEntries
  refine modify_congr fun s hget => ?_
  rw [hget]
  rfl

/-- Scopes around a scope are scopes of the tree. -/
theorem mem_chain {n : Nat} (h : s ∈ t.chain n i) : s ∈ t.scopes := by
  induction n generalizing i with
  | zero => cases h
  | succ n ih =>
    rw [chain] at h
    cases hget : t.get? i with
    | none => simp [hget] at h
    | some s₀ =>
      rw [hget] at h
      dsimp only at h
      cases hparent : s₀.parent with
      | none =>
        rw [hparent, mem_singleton] at h
        exact h ▸ mem_of_get? hget
      | some p =>
        rw [hparent] at h
        rcases mem_cons.mp h with rfl | h
        · exact mem_of_get? hget
        · exact ih h

theorem mem_ancestors_self (hget : t.get? i = some s) : s ∈ t.ancestors i := by
  unfold ancestors
  obtain ⟨n, hn⟩ := Nat.exists_eq_succ_of_ne_zero
    (Nat.ne_of_gt (Nat.lt_of_le_of_lt (Nat.zero_le _) (lt_size_of_get? hget)))
  rw [hn, chain, hget]
  cases hparent : s.parent with
  | none => simp [hparent]
  | some p => simp [hparent]

theorem Valid.get?_of_mem (h : t.Valid) (hs : s ∈ t.scopes) : t.get? s.id = some s := by
  obtain ⟨i, hi⟩ := mem_iff_getElem?.mp hs
  rw [h.ids hi]
  exact hi

theorem lookup_eq_some {e : Entry} (h : t.lookup c i name = some (s, e)) :
    s ∈ t.scopes ∧ (s.entries c).get? name = some e := by
  obtain ⟨s', hs', heq⟩ := exists_of_findSome?_eq_some h
  obtain ⟨e', he', heq⟩ := map_eq_some_iff.mp heq
  cases heq
  exact ⟨mem_chain hs', he'⟩

theorem lookup_eq_none (h : t.lookup c i name = none) (hget : t.get? i = some s) :
    (s.entries c).get? name = none := by
  have hnone := findSome?_eq_none_iff.mp h s (mem_ancestors_self hget)
  exact map_eq_none_iff.mp hnone

/-- A use is recorded where the name is resolved to. -/
theorem Valid.use_eq (h : t.Valid) (c : NameClass) (i : ScopeId) (name : String) (node : NodeId) :
    (t.use c i name node).1 = t.record c (t.resolve c i name) name fun e => e.use node := by
  unfold use resolve record modifyEntries
  cases hlookup : t.lookup c i name with
  | none =>
    refine modify_congr fun s hget => ?_
    dsimp only [map_none, getD_none] at hget ⊢
    rw [lookup_eq_none hlookup hget]
    rfl
  | some found =>
    obtain ⟨s, e⟩ := found
    obtain ⟨hs, he⟩ := lookup_eq_some hlookup
    refine modify_congr fun s' hget => ?_
    obtain rfl : s = s' := some.inj ((h.get?_of_mem hs).symm.trans hget)
    dsimp only
    rw [modify_eq_insert he, he, getD_some]

theorem Valid.resolve_lt (h : t.Valid) (hi : i < t.size) (name : String) :
    t.resolve c i name < t.size := by
  unfold resolve
  cases hlookup : t.lookup c i name with
  | none => exact hi
  | some found =>
    obtain ⟨s, e⟩ := found
    exact lt_size_of_get? (h.get?_of_mem (lookup_eq_some hlookup).1)

theorem listing_setEntries_ne (h : target ≠ c.target) (s : Scope) (r : Registry String Entry) :
    (s.setEntries c r).listing target = s.listing target := by
  cases c <;> cases target <;> first | rfl | exact absurd rfl h

theorem listing_entries (s : Scope) (c : NameClass) :
    s.listing c.target = (s.entries c).flatMap fun e => e.2.references.map fun i => (e.1, i) := by
  cases c <;> simp [Scope.listing, NameClass.target, Scope.references, Scope.entries,
    flatMap_map]

theorem entries_setEntries (s : Scope) (c : NameClass) (r : Registry String Entry) :
    (s.setEntries c r).entries c = r := by
  cases c <;> rfl

/-- Recording a reference lists it, and nothing else changes. -/
theorem Valid.listing_record (h : t.Valid) (hj : j < t.size) (name : String) {g : Entry → Entry}
    (hg : ∀ e, (g e).references = e.references ++ [node]) :
    ((t.record c j name g).listing c.target).Perm ((j, name, node) :: t.listing c.target) := by
  obtain ⟨s, hget⟩ := exists_get?_of_lt hj
  rw [← h.ids hget]
  refine listing_modify (h.ids hget ▸ hget) (by cases c <;> rfl) ?_
  rw [listing_entries, entries_setEntries, listing_entries]
  refine flatMap_insert ?_
  cases hknown : (s.entries c).get? name with
  | none => simp [hg]
  | some e => simp [hg]

theorem listing_record_ne (htarget : target ≠ c.target) (t : ScopeTree) (j : ScopeId)
    (name : String) (g : Entry → Entry) : (t.record c j name g).listing target = t.listing target :=
  listing_modify_same (fun s => by cases c <;> rfl)
    (fun s => listing_setEntries_ne htarget s _) t j

end ScopeTree

/-! ### Recording functions -/

namespace Overloads

variable {os : Overloads}

/-- A function with one more reference in the place of the same function. -/
theorem references_insert_some {key : String} {o o' : Overload}
    (hget : Registry.get? key os = some o) (ho' : o'.references = o.references ++ [node]) :
    (references (Registry.insert key o' os)).Perm (node :: references os) := by
  refine flatMap_insert ?_
  simp [hget, ho']

/-- A new function with one reference. -/
theorem references_insert_none {key : String} {o : Overload} (hget : Registry.get? key os = none)
    (ho : o.references = [node]) :
    (references (Registry.insert key o os)).Perm (node :: references os) := by
  refine flatMap_insert ?_
  simp [hget, ho]

/-- The functions of a name stay under their signatures, and one of them gets the node. -/
theorem Registered.keyed {r : Registration} {os' : Overloads} (h : os.Registered r node os')
    (hos : os.Keyed) : os'.Keyed ∧ (references os').Perm (node :: references os) := by
  cases h with
  | called _ hget | redeclared _ hget =>
    exact ⟨hos.insert (by rw [r.signature_extend, hos.key_eq hget]),
      references_insert_some hget (r.references_extend _ _)⟩
  | @takenOver key o _ hnew hget =>
    have hfree : Registry.get? r.signature.key (Registry.erase key os) = none := by
      rw [get?_erase hos.unique, hnew, ite_self]
    refine ⟨(hos.erase key).insert (by rw [r.signature_extend]), ?_⟩
    have hinsert : (references (Registry.insert r.signature.key
        (r.extend node { o with signature := r.signature }) (Registry.erase key os))).Perm
          ((o.references ++ [node]) ++ references (Registry.erase key os)) :=
      flatMap_insert_append (by simp [hfree])
    have herase : (references os).Perm (o.references ++ references (Registry.erase key os)) :=
      flatMap_erase hget _
    refine hinsert.trans ?_
    rw [append_assoc]
    exact perm_middle.trans (herase.symm.cons node)
  | added hnew =>
    exact ⟨hos.insert (by rw [r.signature_new]),
      references_insert_none hnew (r.references_new _)⟩

end Overloads

namespace ScopeTree

variable {t : ScopeTree} {target : RenameTarget}

theorem root_setOverloads (h : 0 < t.size) (name : String) (os : Overloads) :
    (t.setOverloads name os).root =
      { t.root with functions := t.root.functions.insert name os } := by
  obtain ⟨scopes⟩ := t
  cases scopes with
  | nil => cases h
  | cons s rest => rfl

theorem overloads_setOverloads (h : 0 < t.size) (name x : String) (os : Overloads) :
    (t.setOverloads name os).overloads x = if name = x then os else t.overloads x := by
  rw [overloads, lookupFunction, root_setOverloads h, get?_insert]
  split
  · rfl
  · rfl

theorem Valid.setOverloads (h : t.Valid) (hos : os.Keyed) (name : String) :
    (t.setOverloads name os).Valid where
  nonempty := by
    rw [ScopeTree.setOverloads, size_modify]
    exact h.nonempty
  ids := by
    intro i s hget
    rw [ScopeTree.setOverloads, get?_modify] at hget
    obtain ⟨s₀, hs₀, rfl⟩ := map_eq_some_iff.mp hget
    rw [← h.ids hs₀]
    split <;> rfl
  parents := by
    intro i s p hget hparent
    rw [ScopeTree.setOverloads, get?_modify] at hget
    obtain ⟨s₀, hs₀, rfl⟩ := map_eq_some_iff.mp hget
    split at hparent <;> exact h.parents hs₀ hparent
  functions := by
    intro i s hget hi
    rw [ScopeTree.setOverloads, get?_modify] at hget
    obtain ⟨s₀, hs₀, rfl⟩ := map_eq_some_iff.mp hget
    rw [if_neg (Ne.symm hi)]
    exact h.functions hs₀ hi
  keyed := by
    intro x
    rw [overloads_setOverloads h.nonempty]
    split
    · exact hos
    · exact h.keyed x

theorem listing_functions (s : Scope) :
    s.listing .functions =
      s.functions.flatMap fun e => (Overloads.references e.2).map fun i => (e.1, i) := by
  simp [Scope.listing, Scope.references, Overloads.references, flatMap_map]

/-- One more reference among the functions of a name is listed in the outermost scope. -/
theorem Valid.listing_setOverloads (h : t.Valid)
    (hos : (Overloads.references os).Perm (node :: Overloads.references (t.overloads name))) :
    ((t.setOverloads name os).listing .functions).Perm
      ((0, name, node) :: t.listing .functions) := by
  have hroot := get?_zero h.nonempty
  have hid := h.ids hroot
  rw [← hid]
  refine listing_modify (hid ▸ hroot) rfl ?_
  rw [listing_functions, listing_functions]
  refine flatMap_insert ?_
  have hmap := hos.map fun i => (name, i)
  unfold overloads lookupFunction at hmap
  cases hknown : t.root.functions.get? name with
  | none => simpa [hknown, Overloads.references] using hmap
  | some known => simpa [hknown] using hmap

theorem listing_setOverloads_ne (htarget : target ≠ .functions) (t : ScopeTree) (name : String)
    (os : Overloads) : (t.setOverloads name os).listing target = t.listing target := by
  have hsame : ∀ s : Scope,
      ({ s with functions := s.functions.insert name os } : Scope).listing target =
        s.listing target := fun s => by
    cases target <;> first | rfl | exact absurd rfl htarget
  exact listing_modify_same (f := fun s => { s with functions := s.functions.insert name os })
    (fun _ => rfl) hsame t 0

/-- Registering a function lists one reference more, in the outermost scope, and nothing else. -/
structure Registers (t t' : ScopeTree) (name : String) (node : NodeId) : Prop where
  valid : t'.Valid
  size : t'.size = t.size
  listed : (t'.listing .functions).Perm ((0, name, node) :: t.listing .functions)
  others : ∀ {target}, target ≠ .functions → t'.listing target = t.listing target

theorem Valid.registers_setOverloads (h : t.Valid)
    (hos : os.Keyed)
    (hreferences : (Overloads.references os).Perm
      (node :: Overloads.references (t.overloads name))) :
    t.Registers (t.setOverloads name os) name node :=
  ⟨h.setOverloads hos name, size_modify _ _ _, h.listing_setOverloads hreferences,
    fun htarget => listing_setOverloads_ne htarget t name os⟩

/-- What a registration does to the functions of its name. Those of other names stay. -/
theorem Valid.registered (h : t.Valid) (r : Registration) (name : String) (node : NodeId) :
    (t.overloads name).Registered r node ((t.register r name node).overloads name) ∧
      ∀ x, x ≠ name → (t.register r name node).overloads x = t.overloads x := by
  obtain ⟨os, hos, heq⟩ := register_eq r (h.keyed name) node
  rw [heq]
  refine ⟨?_, fun x hx => ?_⟩
  · rwa [overloads_setOverloads h.nonempty, if_pos rfl]
  · rw [overloads_setOverloads h.nonempty, if_neg (Ne.symm hx)]

theorem Valid.registers (h : t.Valid) (r : Registration) (name : String) (node : NodeId) :
    t.Registers (t.register r name node) name node := by
  obtain ⟨os, hos, heq⟩ := register_eq r (h.keyed name) node
  obtain ⟨hkeyed, hperm⟩ := hos.keyed (h.keyed name)
  rw [heq]
  exact h.registers_setOverloads hkeyed hperm

end ScopeTree

/-! ### What a step lists -/

namespace ScopeTree

variable {t : ScopeTree}

theorem Valid.record (h : t.Valid) (c : NameClass) (j : ScopeId) (name : String)
    (g : Entry → Entry) : (t.record c j name g).Valid := by
  have hkept : ∀ {i s}, (t.record c j name g).get? i = some s →
      ∃ s₀, t.get? i = some s₀ ∧ s.id = s₀.id ∧ s.parent = s₀.parent ∧
        s.functions = s₀.functions := by
    intro i s hget
    rw [ScopeTree.record, modifyEntries, get?_modify] at hget
    obtain ⟨s₀, hs₀, rfl⟩ := map_eq_some_iff.mp hget
    refine ⟨s₀, hs₀, ?_⟩
    split <;> cases c <;> exact ⟨rfl, rfl, rfl⟩
  have hpositive : 0 < (t.record c j name g).size := by
    rw [ScopeTree.record, modifyEntries, size_modify]
    exact h.nonempty
  refine ⟨hpositive, ?_, ?_, ?_, fun x => ?_⟩
  · intro i s hget
    obtain ⟨s₀, hs₀, hid, -⟩ := hkept hget
    rw [hid, h.ids hs₀]
  · intro i s p hget hparent
    obtain ⟨s₀, hs₀, -, hsame, -⟩ := hkept hget
    exact h.parents hs₀ (hsame ▸ hparent)
  · intro i s hget hi
    obtain ⟨s₀, hs₀, -, -, hsame⟩ := hkept hget
    rw [hsame, h.functions hs₀ hi]
  · obtain ⟨s₀, hs₀, -, -, hsame⟩ := hkept (get?_zero hpositive)
    obtain rfl := some.inj (hs₀.symm.trans (get?_zero h.nonempty))
    have hkeyed := h.keyed x
    rwa [overloads, lookupFunction, ← hsame] at hkeyed

theorem size_record (t : ScopeTree) (c : NameClass) (j : ScopeId) (name : String)
    (g : Entry → Entry) : (t.record c j name g).size = t.size :=
  size_modify _ _ _

theorem get?_push (t : ScopeTree) (parent : ScopeId) (name : String) (span : Option Span)
    (i : ScopeId) :
    (t.push parent name span).1.get? i =
      if i = t.size then some (Scope.fresh t.size name (some parent) span) else t.get? i := by
  unfold get? push size
  rw [getElem?_append]
  by_cases hi : i < t.scopes.length
  · rw [if_pos hi, if_neg (Nat.ne_of_lt hi)]
  · rw [if_neg hi]
    by_cases heq : i = t.scopes.length
    · simp [heq]
    · have hbeyond : [Scope.fresh t.scopes.length name (some parent) span].length ≤
          i - t.scopes.length :=
        Nat.sub_pos_of_lt (Nat.lt_of_le_of_ne (Nat.le_of_not_lt hi) (Ne.symm heq))
      rw [if_neg heq, getElem?_eq_none (Nat.le_of_not_lt hi),
        getElem?_eq_none hbeyond]

theorem Valid.push (h : t.Valid) {parent : ScopeId} (hparent : parent < t.size) (name : String)
    (span : Option Span) : (t.push parent name span).1.Valid := by
  have hcases : ∀ {i s}, (t.push parent name span).1.get? i = some s →
      i = t.size ∧ s = Scope.fresh t.size name (some parent) span ∨ t.get? i = some s := by
    intro i s hget
    rw [get?_push] at hget
    split at hget
    · exact .inl ⟨‹_›, (some.inj hget).symm⟩
    · exact .inr hget
  have hroot : (t.push parent name span).1.root = t.root := by
    obtain ⟨scopes⟩ := t
    cases scopes with
    | nil => exact absurd h.nonempty (Nat.lt_irrefl _)
    | cons s rest => rfl
  refine ⟨?_, ?_, ?_, ?_, fun x => ?_⟩
  · simp [ScopeTree.push, size]
  · intro i s hget
    rcases hcases hget with ⟨rfl, rfl⟩ | hget
    · rfl
    · exact h.ids hget
  · intro i s p hget hp
    rcases hcases hget with ⟨rfl, rfl⟩ | hget
    · cases hp
      exact hparent
    · exact h.parents hget hp
  · intro i s hget hi
    rcases hcases hget with ⟨rfl, rfl⟩ | hget
    · rfl
    · exact h.functions hget hi
  · have hkeyed := h.keyed x
    rwa [overloads, lookupFunction, ← hroot] at hkeyed

theorem listing_push (t : ScopeTree) (parent : ScopeId) (name : String) (span : Option Span)
    (target : RenameTarget) :
    (t.push parent name span).1.listing target = t.listing target := by
  unfold listing push
  cases target <;> simp [Scope.listing, Scope.references, Scope.fresh]

end ScopeTree

/-- Scopes as binding makes them, with one of them open. -/
structure Names.Valid (b : Names) : Prop where
  scopes : b.scopes.Valid
  current : b.current < b.scopes.size

namespace Names

/-- What an occurrence adds to a listing. -/
def added (b : Names) (target : RenameTarget) : Occurrence → List (ScopeId × String × NodeId)
  | .declareVariable name site =>
    if target = .vars ∧ ¬Vocabulary.isBuiltinVariable name then [(b.current, name, site.id)] else []
  | .useVariable name site =>
    if target = .vars ∧ ¬Vocabulary.isBuiltinVariable name then
      [(b.scopes.resolve .var b.current name, name, site.id)]
    else []
  | .declareType name site => if target = .types then [(b.current, name, site.id)] else []
  | .useType name site =>
    if target = .types then [(b.scopes.resolve .type b.current name, name, site.id)] else []
  | .declareFunction name _ site | .defineFunction name _ site =>
    if target = .functions then [(0, name, site.id)] else []
  | .call name callee _ site =>
    if (b.scopes.lookup .type b.current name).isSome then
      if target = .types then
        [(b.scopes.resolve .type b.current name, name, (b.callees.get? site.id).getD callee.id)]
      else []
    else if (b.scopes.lookupFunction name).isSome || !Vocabulary.isBuiltinFunction name then
      if target = .functions then [(0, name, site.id)] else []
    else []
  | _ => []

variable {b : Names}

/-- A step keeps names valid. -/
theorem Valid.step (h : b.Valid) (o : Occurrence) : (b.step o).Valid := by
  by_cases hflat : o.isFlat = true
  · obtain ⟨hcurrent, hscopes⟩ := b.scopes_step hflat
    have hkept : (b.step o).scopes.Valid ∧ (b.step o).scopes.size = b.scopes.size := by
      rw [hscopes]
      cases (b.effect o).act with
      | nothing => exact ⟨h.scopes, rfl⟩
      | declare =>
        rw [perform, declare_eq]
        exact ⟨h.scopes.record _ _ _ _, size_record _ _ _ _ _⟩
      | use =>
        rw [perform, h.scopes.use_eq]
        exact ⟨h.scopes.record _ _ _ _, size_record _ _ _ _ _⟩
      | register r name =>
        have hregisters := h.scopes.registers r name (b.effect o).site.id
        exact ⟨hregisters.valid, hregisters.size⟩
    exact ⟨hkept.1, by rw [hcurrent, hkept.2]; exact h.current⟩
  · cases o with
    | enter name span =>
      refine ⟨h.scopes.push h.current name span, ?_⟩
      simp [Names.step, push, size]
    | leave =>
      refine ⟨h.scopes, ?_⟩
      change ((b.scopes.get? b.current).bind Scope.parent).getD b.current < b.scopes.size
      cases hparent : (b.scopes.get? b.current).bind Scope.parent with
      | none => exact h.current
      | some p =>
        obtain ⟨s, hget, hp⟩ := bind_eq_some_iff.mp hparent
        exact Nat.lt_trans (h.scopes.parents hget hp) h.current
    | _ => exact absurd rfl hflat

/-- What is listed once something is done at a node. -/
def listed (b : Names) (target : RenameTarget) (node : NodeId) :
    Act → List (ScopeId × String × NodeId)
  | .nothing => []
  | .declare c name => if target = c.target then [(b.current, name, node)] else []
  | .use c name =>
    if target = c.target then [(b.scopes.resolve c b.current name, name, node)] else []
  | .register _ name => if target = .functions then [(0, name, node)] else []

theorem added_eq (b : Names) (target : RenameTarget) (o : Occurrence) :
    b.added target o = b.listed target (b.effect o).site.id (b.effect o).act := by
  cases o with
  | enter | leave | malformed | declareType | useType | declareFunction | defineFunction => rfl
  | declareVariable name site | useVariable name site =>
    cases hname : Vocabulary.isBuiltinVariable name <;>
      simp [added, effect, listed, NameClass.target, hname]
  | call name callee arguments site =>
    simp only [added, effect]
    split
    · rfl
    · split <;> rfl

/-- A step lists what its occurrence adds. -/
theorem Valid.listing_step (h : b.Valid) (o : Occurrence) (target : RenameTarget) :
    ((b.step o).scopes.listing target).Perm (b.added target o ++ b.scopes.listing target) := by
  have hrecord : ∀ (c : NameClass) (j : ScopeId) (name : String) (g : Entry → Entry)
      (node : NodeId), j < b.scopes.size → (∀ e, (g e).references = e.references ++ [node]) →
      ((b.scopes.record c j name g).listing target).Perm
        ((if target = c.target then [(j, name, node)] else []) ++ b.scopes.listing target) := by
    intro c j name g node hj hg
    split
    · rename_i htarget
      subst htarget
      exact h.scopes.listing_record hj name hg
    · rename_i htarget
      rw [listing_record_ne htarget]
      exact List.Perm.refl _
  by_cases hflat : o.isFlat = true
  · rw [added_eq, (b.scopes_step hflat).2]
    cases (b.effect o).act with
    | nothing => exact List.Perm.refl _
    | declare c name =>
      rw [perform, declare_eq]
      exact hrecord c _ _ _ _ h.current fun _ => rfl
    | use c name =>
      rw [perform, h.scopes.use_eq]
      exact hrecord c _ _ _ _ (h.scopes.resolve_lt h.current name) fun _ => rfl
    | register r name =>
      have hregisters := h.scopes.registers r name (b.effect o).site.id
      rw [perform, listed]
      split
      · rename_i htarget
        subst htarget
        exact hregisters.listed
      · rename_i htarget
        rw [hregisters.others htarget]
        exact List.Perm.refl _
  · cases o with
    | enter name span =>
      simp only [Names.step, added, nil_append]
      rw [listing_push]
    | leave => exact List.Perm.refl _
    | _ => exact absurd rfl hflat

/-! ### What a run lists -/

/-- What occurrences add to a listing, one after the other. -/
def addedAll (target : RenameTarget) : Names → List Occurrence → List (ScopeId × String × NodeId)
  | _, [] => []
  | b, o :: os => b.added target o ++ addedAll target (b.step o) os

theorem Valid.foldl (h : b.Valid) (os : List Occurrence) : (os.foldl Names.step b).Valid := by
  induction os generalizing b with
  | nil => exact h
  | cons o os ih => exact ih (h.step o)

/-- A run lists what its occurrences add. -/
theorem Valid.listing_foldl (h : b.Valid) (os : List Occurrence) (target : RenameTarget) :
    ((os.foldl Names.step b).scopes.listing target).Perm
      (b.addedAll target os ++ b.scopes.listing target) := by
  induction os generalizing b with
  | nil => exact List.Perm.refl _
  | cons o os ih =>
    rw [foldl_cons, addedAll]
    refine (ih (h.step o)).trans (((h.listing_step o target).append_left _).trans ?_)
    rw [← append_assoc]
    exact perm_append_comm.append_right _

theorem valid_initial (span : Option Span) (lastId : NodeId) :
    (Binding.initial span lastId).names.Valid := by
  have hget : ∀ {i s}, (initial span).get? i = some s → i = 0 ∧ s = Scope.global span := by
    intro i s hget
    cases i with
    | zero => exact ⟨rfl, (some.inj hget).symm⟩
    | succ i => cases hget
  refine ⟨⟨Nat.one_pos, ?_, ?_, ?_, fun name => Overloads.keyed_nil⟩, Nat.one_pos⟩
  · intro i s h
    obtain ⟨rfl, rfl⟩ := hget h
    rfl
  · intro i s p h hp
    obtain ⟨rfl, rfl⟩ := hget h
    cases hp
  · intro i s h hi
    exact absurd (hget h).1 hi

theorem listing_initial (span : Option Span) (lastId : NodeId) (target : RenameTarget) :
    (Binding.initial span lastId).names.scopes.listing target = [] := by
  cases target <;> rfl

/-! ### All that is registered occurred -/

variable {target : RenameTarget} {x : String} {i : NodeId}

/-- What an occurrence adds is what it registers. -/
theorem registers_of_added {o : Occurrence} {j : ScopeId} (h : (j, x, i) ∈ b.added target o) :
    o.Registers (b.step o).callees target x i := by
  have hentry : ∀ {p : Prop} [Decidable p] {k : ScopeId} {name : String} {node : NodeId},
      (j, x, i) ∈ (if p then [(k, name, node)] else []) → p ∧ x = name ∧ i = node := by
    intro p _ k name node h
    by_cases hp : p
    · rw [if_pos hp, mem_singleton] at h
      cases h
      exact ⟨hp, rfl, rfl⟩
    · rw [if_neg hp] at h
      cases h
  cases o with
  | enter | leave | malformed => cases h
  | declareVariable name site =>
    obtain ⟨⟨rfl, -⟩, rfl, rfl⟩ := hentry h
    exact .declaredVariable
  | useVariable name site =>
    obtain ⟨⟨rfl, -⟩, rfl, rfl⟩ := hentry h
    exact .usedVariable
  | declareType name site =>
    obtain ⟨rfl, rfl, rfl⟩ := hentry h
    exact .declaredType
  | useType name site =>
    obtain ⟨rfl, rfl, rfl⟩ := hentry h
    exact .usedType
  | declareFunction name signature site =>
    obtain ⟨rfl, rfl, rfl⟩ := hentry h
    exact .declaredFunction
  | defineFunction name signature site =>
    obtain ⟨rfl, rfl, rfl⟩ := hentry h
    exact .definedFunction
  | call name callee arguments site =>
    simp only [added, Names.step, call] at h ⊢
    by_cases htype : (b.scopes.lookup .type b.current name).isSome = true
    · rw [if_pos htype] at h ⊢
      obtain ⟨rfl, rfl, rfl⟩ := hentry h
      cases hget : b.callees.get? site.id with
      | none => exact .calledType
      | some fresh => exact .calledExchanged hget
    · rw [if_neg htype] at h ⊢
      split at h
      · rename_i hfunction
        obtain ⟨rfl, rfl, rfl⟩ := hentry h
        rw [if_pos hfunction]
        obtain ⟨fresh, hget⟩ := exists_get?_exchangeCallee _ site.id
        exact .calledFunction hget
      · cases h

/-- A step registers nothing but its occurrence. -/
theorem Valid.step_refers (hb : b.Valid) {o : Occurrence}
    (h : (b.step o).scopes.Refers target x i) :
    b.scopes.Refers target x i ∨ o.Registers (b.step o).callees target x i := by
  obtain ⟨j, hj⟩ := refers_iff_listing.mp h
  rcases mem_append.mp ((hb.listing_step o target).mem_iff.mp hj) with hadded | hold
  · exact .inr (registers_of_added hadded)
  · exact .inl (refers_iff_listing.mpr ⟨j, hold⟩)

/-- What is known after the occurrences, from where the last identity was `first`: all that is
registered comes from one of them, and the new callees of their calls are fresh and distinct. -/
structure Sound (first : NodeId) (os : List Occurrence) (b : Names) : Prop where
  refers : ∀ target x i, b.scopes.Refers target x i → ∃ o ∈ os, o.Registers b.callees target x i
  calls : ∀ i v, b.callees.get? i = some v →
    ∃ name callee arguments site, .call name callee arguments site ∈ os ∧ site.id = i
  fresh : ∀ i v, b.callees.get? i = some v → first < v ∧ v ≤ b.lastId
  distinct : ∀ i j v, b.callees.get? i = some v → b.callees.get? j = some v → i = j

/-- A step keeps what is known sound. -/
theorem Sound.step {first : NodeId} {os : List Occurrence} (hb : b.Sound first os)
    (hvalid : b.Valid) (hfirst : first ≤ b.lastId) (o : Occurrence) :
    (b.step o).Sound first (os ++ [o]) where
  refers := by
    intro target x i h
    rcases hvalid.step_refers h with h | h
    · obtain ⟨o', ho', hreg⟩ := hb.refers target x i h
      exact ⟨o', mem_append_left _ ho', hreg.mono fun _ _ => b.step_callees_mono o⟩
    · exact ⟨o, mem_append_right _ mem_cons_self, h⟩
  calls := by
    intro i v h
    rcases b.step_callees o with ⟨hcallees, -⟩ |
      ⟨name, callee, arguments, site, rfl, -, hcallees, -⟩
    · rw [hcallees] at h
      obtain ⟨name, callee, arguments, site, hmem, hsite⟩ := hb.calls i v h
      exact ⟨name, callee, arguments, site, mem_append_left _ hmem, hsite⟩
    · rw [hcallees, get?_insert] at h
      split at h
      · rename_i hsite
        exact ⟨name, callee, arguments, site, mem_append_right _ mem_cons_self, hsite⟩
      · obtain ⟨name, callee, arguments, site, hmem, hsite⟩ := hb.calls i v h
        exact ⟨name, callee, arguments, site, mem_append_left _ hmem, hsite⟩
  fresh := by
    intro i v h
    rcases b.step_callees o with ⟨hcallees, hlast⟩ | ⟨_, _, _, site, rfl, -, hcallees, hlast⟩
    · rw [hcallees] at h
      rw [hlast]
      exact hb.fresh i v h
    · rw [hcallees, get?_insert] at h
      rw [hlast]
      split at h
      · cases h
        exact ⟨Nat.lt_succ_of_le hfirst, Nat.le_refl _⟩
      · obtain ⟨hlt, hle⟩ := hb.fresh i v h
        exact ⟨hlt, Nat.le_succ_of_le hle⟩
  distinct := by
    intro i j v hi hj
    rcases b.step_callees o with ⟨hcallees, -⟩ | ⟨_, _, _, site, rfl, -, hcallees, -⟩
    · rw [hcallees] at hi hj
      exact hb.distinct i j v hi hj
    · have hold : ∀ k, b.callees.get? k ≠ some (b.lastId + 1) := by
        intro k hk
        exact Nat.not_succ_le_self _ (hb.fresh k _ hk).2
      rw [hcallees, get?_insert] at hi hj
      split at hi <;> split at hj
      · rename_i hsame hsame'
        exact hsame.symm.trans hsame'
      · cases hi
        exact absurd hj (hold j)
      · cases hj
        exact absurd hi (hold i)
      · exact hb.distinct i j v hi hj

theorem le_lastId_step (b : Names) (o : Occurrence) : b.lastId ≤ (b.step o).lastId := by
  rcases b.step_callees o with ⟨-, hlast⟩ | ⟨_, _, _, _, -, -, -, hlast⟩
  · exact Nat.le_of_eq hlast.symm
  · rw [hlast]
    exact Nat.le_succ _

/-- So does a run. -/
theorem Sound.foldl {first : NodeId} {os : List Occurrence} (hb : b.Sound first os)
    (hvalid : b.Valid) (hfirst : first ≤ b.lastId) (os' : List Occurrence) :
    (os'.foldl Names.step b).Sound first (os ++ os') := by
  induction os' generalizing b os with
  | nil => simpa using hb
  | cons o os' ih =>
    have hrest := ih (hb.step hvalid hfirst o) (hvalid.step o)
      (Nat.le_trans hfirst (b.le_lastId_step o))
    rwa [append_assoc] at hrest

theorem sound_initial (span : Option Span) (lastId : NodeId) :
    (Binding.initial span lastId).names.Sound lastId [] where
  refers := by
    rintro target x i ⟨s, hs, hrefers⟩
    obtain rfl : s = Scope.global span := mem_singleton.mp hs
    cases target <;> simp [Scope.Refers, Scope.references, Scope.global, Scope.fresh] at hrefers
  calls := by rintro i v ⟨⟩
  fresh := by rintro i v ⟨⟩
  distinct := by rintro i j v ⟨⟩

end Names

/-- What a binding that succeeds knows is sound, and the tree has no malformed occurrence. -/
theorem Binding.ofTree_sound {policy : Policy} {root : Node} {lastId : NodeId} {b : Binding}
    (h : Binding.ofTree policy root lastId = (.ok (), b)) :
    b.names.Sound lastId (root.occurrences .plain) ∧
      ∀ kind, .malformed kind ∉ root.occurrences .plain := by
  obtain ⟨hnames, hformed⟩ := BindM.steps_names h
  rw [hnames]
  exact ⟨(Names.sound_initial root.span lastId).foldl (Names.valid_initial _ _) (Nat.le_refl _) _,
    hformed⟩

end ShaderSource
