import Mathlib.Data.List.Sublists
import ShaderSource.Proofs.Multiplicity

/-!
# The order of new callees

Binding gives new callees to calls in the order in which it comes upon the calls, and it comes upon
them in pre-order. The exception is a block without an instance, which is gone over twice. But when
the members of the block are gone over again, their calls are settled: each has a new callee, or is
the call of a type, which is still known since no scope was left. So nothing is exchanged then.

Hence the identities of new callees follow each other in pre-order, and a call that was once listed
as that of a type never gets another callee.

## Main results

* `Names.settled_foldl_callees`: settled calls get no new callees.
* `Node.AllFit.exchanges`: what binding does to the callees of a tree.
-/

namespace ShaderSource

open List Names Node Registry

variable {α : Type} {name : String} {os : List Occurrence} {callee : Site} {arguments : Nat}
  {o : Occurrence} {move : Move} {role : Role}

/-! ### Types stay known -/

/-- The scope stands where the other one does and has all its types. -/
structure Scope.Extends (s s' : Scope) : Prop where
  parent : s'.parent = s.parent
  types : ∀ name, (s.types.get? name).isSome = true → (s'.types.get? name).isSome = true

/-- The scopes are the same ones, each related to what has become of it. -/
structure ScopeTree.Becomes (R : Scope → Scope → Prop) (t t' : ScopeTree) : Prop where
  size : t'.size = t.size
  scope : ∀ i s, t.get? i = some s → ∃ s', t'.get? i = some s' ∧ R s s'

/-- The scopes are the same ones, and types were only added to them. -/
abbrev ScopeTree.Grows : ScopeTree → ScopeTree → Prop :=
  Becomes Scope.Extends

theorem Registry.isSome_get?_insert {κ : Type} [DecidableEq κ] {r : Registry κ α} {k : κ}
    (h : (r.get? k).isSome = true) (k' : κ) (a : α) : ((r.insert k' a).get? k).isSome = true := by
  rw [get?_insert]
  split
  · rfl
  · exact h

theorem Registry.isSome_get?_modify {κ : Type} [DecidableEq κ] {r : Registry κ α} {k : κ}
    (h : (r.get? k).isSome = true) (k' : κ) (f : α → α) :
    ((r.modify k' f).get? k).isSome = true := by
  rw [Registry.get?_modify]
  split
  · simpa using h
  · exact h

namespace ScopeTree

variable {t t' : ScopeTree}

section Becomes

variable {R : Scope → Scope → Prop} (hrefl : ∀ s, R s s)

include hrefl

theorem becomes_modify {f : Scope → Scope} (hf : ∀ s, R s (f s)) (j : ScopeId) :
    t.Becomes R (t.modify j f) := by
  refine ⟨size_modify t j f, fun i s hs => ?_⟩
  rw [get?_modify, hs]
  by_cases hj : j = i
  · exact ⟨f s, by simp [hj], hf s⟩
  · exact ⟨s, by simp [hj], hrefl s⟩

/-- A relation that entries may be added under, and that functions do not matter for, holds between
the scopes before and after a step that neither opens nor leaves one. -/
theorem becomes_flat {b : Names} {o : Occurrence} (h : o.isFlat = true)
    (hentries : ∀ s c r,
      (∀ name, ((Scope.entries s c).get? name).isSome = true →
        (Registry.get? name r).isSome = true) → R s (s.setEntries c r))
    (hfunctions : ∀ s fs, R s { s with functions := fs }) :
    b.scopes.Becomes R (b.step o).scopes := by
  have hinsert : ∀ (c : NameClass) (name : String) (e : Entry),
      b.scopes.Becomes R (b.scopes.modifyEntries b.current c (Registry.insert name e)) :=
    fun c name e => becomes_modify hrefl (fun s => hentries s c _ fun x hx =>
      isSome_get?_insert hx _ _) _
  rw [(b.scopes_step h).2]
  cases (b.effect o).act with
  | nothing => exact ⟨rfl, fun i s hs => ⟨s, hs, hrefl s⟩⟩
  | declare => exact hinsert _ _ _
  | use =>
    rw [Names.perform, use]
    split
    · exact becomes_modify hrefl (fun s => hentries s _ _ fun x hx =>
        isSome_get?_modify hx _ _) _
    · exact hinsert _ _ _
  | register r name =>
    obtain ⟨os, heq⟩ := b.scopes.register_eq_setOverloads r name (b.effect o).site.id
    rw [Names.perform, heq]
    exact becomes_modify hrefl (fun s => hfunctions s _) 0

end Becomes

/-- What is around a scope has all the types it had. -/
theorem Grows.chain (h : t.Grows t') {n : Nat} {i : ScopeId}
    (hknown : ∃ s ∈ t.chain n i, (s.types.get? name).isSome = true) :
    ∃ s ∈ t'.chain n i, (s.types.get? name).isSome = true := by
  induction n generalizing i with
  | zero =>
    obtain ⟨s, hs, -⟩ := hknown
    cases hs
  | succ n ih =>
    obtain ⟨s, hs, hname⟩ := hknown
    rw [ScopeTree.chain] at hs
    cases hget : t.get? i with
    | none => simp [hget] at hs
    | some s₀ =>
      obtain ⟨s₀', hget', hextends⟩ := h.scope i s₀ hget
      rw [ScopeTree.chain, hget']
      cases hparent : s₀.parent with
      | none =>
        obtain rfl : s = s₀ := by simpa [hget, hparent] using hs
        exact ⟨s₀', by simp [hextends.parent, hparent], hextends.types name hname⟩
      | some p =>
        have hparent' : s₀'.parent = some p := hextends.parent.trans hparent
        simp only [hget, hparent, mem_cons] at hs
        rcases hs with rfl | hs
        · exact ⟨s₀', by simp [hparent'], hextends.types name hname⟩
        · obtain ⟨s', hs', hname'⟩ := ih ⟨s, hs, hname⟩
          exact ⟨s', by simp [hparent', hs'], hname'⟩

/-- A type that is known stays known. -/
theorem Grows.lookup (h : t.Grows t') {i : ScopeId}
    (hknown : (t.lookup .type i name).isSome = true) :
    (t'.lookup .type i name).isSome = true := by
  have hchain : ∀ t : ScopeTree, (t.lookup .type i name).isSome = true ↔
      ∃ s ∈ t.chain t.size i, (s.types.get? name).isSome = true := by
    intro t
    simp [ScopeTree.lookup, ScopeTree.ancestors, findSome?_isSome_iff, Scope.entries]
  rw [hchain, h.size]
  exact h.chain ((hchain t).mp hknown)

end ScopeTree

/-! ### Settled calls -/

namespace Names

variable {b : Names} {o : Occurrence}

/-- A type of the name is known. -/
def KnowsType (b : Names) (name : String) : Prop :=
  (b.scopes.lookup .type b.current name).isSome = true

/-- A call of the name has a new callee already, or is that of a type. -/
def Settles (b : Names) (name : String) (site : NodeId) : Prop :=
  b.KnowsType name ∨ ∃ v, b.callees.get? site = some v

/-- What a step does to the scopes if it neither opens nor leaves one. -/
theorem step_flat (h : o.isFlat = true) :
    (b.step o).current = b.current ∧ b.scopes.Grows (b.step o).scopes := by
  refine ⟨(b.scopes_step h).1, ScopeTree.becomes_flat (fun _ => ⟨rfl, fun _ h => h⟩) h
    (fun s c r hr => ?_) fun _ _ => ⟨rfl, fun _ h => h⟩⟩
  cases c with
  | var => exact ⟨rfl, fun _ h => h⟩
  | type => exact ⟨rfl, hr⟩

theorem KnowsType.step (h : b.KnowsType name) (ho : o.isFlat = true) :
    (b.step o).KnowsType name := by
  obtain ⟨hcurrent, hgrows⟩ := step_flat (b := b) ho
  rw [KnowsType, hcurrent]
  exact hgrows.lookup h

theorem Settles.step {site : NodeId} (h : b.Settles name site) (ho : o.isFlat = true) :
    (b.step o).Settles name site := by
  rcases h with h | ⟨v, h⟩
  · exact .inl (h.step ho)
  · exact .inr ⟨v, b.step_callees_mono o h⟩

theorem Settles.foldl {site : NodeId} (h : b.Settles name site) (hos : ∀ o ∈ os, o.isFlat = true) :
    (os.foldl Names.step b).Settles name site := by
  induction os generalizing b with
  | nil => exact h
  | cons o os ih =>
    rw [forall_mem_cons] at hos
    exact ih (h.step hos.1) hos.2

/-- A call settles itself. -/
theorem settles_call (b : Names) (name : String) (callee site : Site) (arguments : Nat) :
    (b.step (.call name callee arguments site)).Settles name site.id := by
  by_cases hknown : b.KnowsType name
  · exact .inl (hknown.step rfl)
  · exact .inr (step_call_function hknown)

/-- Calls are settled once they were gone through, as long as no scope is left. -/
theorem settles_of_mem (hos : ∀ o ∈ os, o.isFlat = true) {site : Site}
    (hmem : .call name callee arguments site ∈ os) :
    (os.foldl Names.step b).Settles name site.id := by
  obtain ⟨before, after, rfl⟩ := append_of_mem hmem
  rw [foldl_append, foldl_cons]
  refine (settles_call _ name callee site arguments).foldl fun o ho => hos o ?_
  exact mem_append_right _ (mem_cons_of_mem _ ho)

/-- A settled call gets no new callee. -/
theorem Settles.step_call {site : Site} (h : b.Settles name site.id) :
    (b.step (.call name callee arguments site)).callees = b.callees ∧
      (b.step (.call name callee arguments site)).lastId = b.lastId := by
  rcases b.step_callees (.call name callee arguments site) with
    hsame | ⟨_, _, _, _, heq, hnone, hcallees, -⟩
  · exact hsame
  · cases heq
    rcases h with h | ⟨v, hget⟩
    · -- The registry would have become longer.
      have hlength := congrArg List.length ((step_call_type h).symm.trans hcallees)
      simp [insert_of_none hnone] at hlength
    · rw [hnone] at hget
      cases hget

/-- Settled calls get no new callees. -/
theorem settled_foldl_callees (hos : ∀ o ∈ os, o.isFlat = true)
    (hsettles : ∀ name callee arguments site, .call name callee arguments site ∈ os →
      b.Settles name site.id) :
    (os.foldl step b).callees = b.callees ∧ (os.foldl step b).lastId = b.lastId := by
  induction os generalizing b with
  | nil => exact ⟨rfl, rfl⟩
  | cons o os ih =>
    rw [forall_mem_cons] at hos
    have hstep : (b.step o).callees = b.callees ∧ (b.step o).lastId = b.lastId := by
      rcases b.step_callees o with hsame | ⟨name, callee, arguments, site, rfl, -⟩
      · exact hsame
      · exact (hsettles name callee arguments site mem_cons_self).step_call
    obtain ⟨hcallees, hlast⟩ := ih hos.2 fun name callee arguments site hmem =>
      (hsettles name callee arguments site (mem_cons_of_mem _ hmem)).step hos.1
    exact ⟨hcallees.trans hstep.1, hlast.trans hstep.2⟩

/-! ### Runs that exchange in order -/

/-- A call that is once that of a type keeps its callee. -/
def KeepsTypes (b : Names) (os : List Occurrence) : Prop :=
  ∀ before name callee arguments site after,
    os = before ++ .call name callee arguments site :: after →
    (before.foldl step b).KnowsType name →
    (before.foldl step b).callees.get? site.id = none →
    (os.foldl step b).callees.get? site.id = none

/-- What the occurrences do to the callees: new ones are given to some of the nodes with the given
identities, in their order, and take identities one after the other. -/
structure Exchanges (b : Names) (os : List Occurrence) (ids : List NodeId) : Prop where
  order : ∃ new, (os.foldl step b).callees = b.callees ++ new ∧
    (new.map Prod.fst).Sublist ids ∧
    Consecutive b.lastId (new.map Prod.snd) (os.foldl step b).lastId
  sites : ∀ name callee arguments site, .call name callee arguments site ∈ os → site.id ∈ ids
  types : b.KeepsTypes os

/-- Runs one after the other, where the second one keeps the callees that the first one has
kept. -/
theorem KeepsTypes.append {os' : List Occurrence} (h : b.KeepsTypes os)
    (h' : (os.foldl step b).KeepsTypes os')
    (hkeeps : ∀ name callee arguments site, .call name callee arguments site ∈ os →
      (os.foldl step b).callees.get? site.id = none →
      ((os ++ os').foldl step b).callees.get? site.id = none) :
    b.KeepsTypes (os ++ os') := by
  intro before name callee arguments site after heq hknown hnone
  rcases append_eq_append_iff.mp heq with ⟨middle, rfl, hos'⟩ | ⟨middle, hos, hafter⟩
  · rw [foldl_append] at hknown hnone ⊢
    exact h' middle name callee arguments site after hos' hknown hnone
  · cases middle with
    | nil =>
      rw [append_nil] at hos
      subst hos
      rw [foldl_append]
      exact h' [] name callee arguments site after hafter.symm hknown hnone
    | cons o middle =>
      obtain ⟨rfl, -⟩ := cons.inj hafter
      exact hkeeps name callee arguments site (by simp [hos])
        (h before name callee arguments site middle hos hknown hnone)

namespace Exchanges

variable {os os' : List Occurrence} {ids ids' : List NodeId}

theorem mono (h : b.Exchanges os ids) (hids : ids.Sublist ids') : b.Exchanges os ids' where
  order := by
    obtain ⟨new, hcallees, hkeys, hvalues⟩ := h.order
    exact ⟨new, hcallees, hkeys.trans hids, hvalues⟩
  sites := fun name callee arguments site hmem =>
    hids.subset (h.sites name callee arguments site hmem)
  types := h.types

theorem nil (b : Names) : b.Exchanges [] [] where
  order := ⟨[], by simp, by simp, .nil _⟩
  sites := by simp
  types := by intro before name callee arguments site after heq; simp at heq

/-- A node that has no new callee does not get one from a run over other nodes. -/
theorem get?_eq_none (h : b.Exchanges os ids) {i : NodeId} (hnone : b.callees.get? i = none)
    (hi : i ∉ ids) : (os.foldl step b).callees.get? i = none := by
  obtain ⟨new, hcallees, hkeys, -⟩ := h.order
  have hnew : Registry.get? i new = none :=
    get?_eq_none_iff.mpr fun hmem => hi (hkeys.subset hmem)
  rw [hcallees, get?_append, hnone, hnew]
  rfl

/-- Runs over different nodes. -/
theorem append (h : b.Exchanges os ids) (h' : (os.foldl step b).Exchanges os' ids')
    (hdisjoint : List.Disjoint ids ids') : b.Exchanges (os ++ os') (ids ++ ids') where
  order := by
    obtain ⟨new, hcallees, hkeys, hvalues⟩ := h.order
    obtain ⟨new', hcallees', hkeys', hvalues'⟩ := h'.order
    refine ⟨new ++ new', ?_, ?_, ?_⟩
    · rw [foldl_append, hcallees', hcallees, append_assoc]
    · rw [map_append]
      exact hkeys.append hkeys'
    · rw [map_append, foldl_append]
      exact hvalues.append hvalues'
  sites := by
    intro name callee arguments site hmem
    rcases mem_append.mp hmem with hmem | hmem
    · exact mem_append_left _ (h.sites name callee arguments site hmem)
    · exact mem_append_right _ (h'.sites name callee arguments site hmem)
  types := h.types.append h'.types fun name callee arguments site hmem hnone => by
    rw [foldl_append]
    exact h'.get?_eq_none hnone fun hmem' =>
      hdisjoint (h.sites name callee arguments site hmem) hmem'

/-- A second run over calls that are settled adds nothing. -/
theorem append_settled (h : b.Exchanges os ids) (hflat : ∀ o ∈ os', o.isFlat = true)
    (hsettles : ∀ name callee arguments site, .call name callee arguments site ∈ os' →
      (os.foldl step b).Settles name site.id ∧ site.id ∈ ids) :
    b.Exchanges (os ++ os') ids := by
  -- No part of the second run changes the callees.
  have hsame : ∀ before after, os' = before ++ after →
      ((before.foldl step (os.foldl step b)).callees =
        (os.foldl step b).callees ∧
      (before.foldl step (os.foldl step b)).lastId =
        (os.foldl step b).lastId) := by
    rintro before after rfl
    exact settled_foldl_callees (fun o ho => hflat o (mem_append_left _ ho))
      fun name callee arguments site hmem =>
        (hsettles name callee arguments site (mem_append_left _ hmem)).1
  obtain ⟨hcallees, hlast⟩ := hsame os' [] (by simp)
  refine ⟨?_, ?_, h.types.append ?_ ?_⟩
  · obtain ⟨new, hnew, hkeys, hvalues⟩ := h.order
    exact ⟨new, by rw [foldl_append, hcallees, hnew], hkeys,
      by rwa [foldl_append, hlast]⟩
  · intro name callee arguments site hmem
    rcases mem_append.mp hmem with hmem | hmem
    · exact h.sites name callee arguments site hmem
    · exact (hsettles name callee arguments site hmem).2
  · intro before name callee arguments site after heq _ hnone
    rwa [hcallees, ← (hsame before _ heq).1]
  · intro name callee arguments site _ hnone
    rwa [foldl_append, hcallees]

/-- Runs over different nodes, one after the other. -/
theorem flatMap {l : List α} {f : α → List Occurrence} {g : α → List NodeId}
    (h : ∀ a ∈ l, ∀ b : Names, b.Exchanges (f a) (g a)) (hnodup : (l.flatMap g).Nodup) (b : Names) :
    b.Exchanges (l.flatMap f) (l.flatMap g) := by
  induction l generalizing b with
  | nil => exact .nil b
  | cons a l ih =>
    rw [forall_mem_cons] at h
    rw [flatMap_cons, nodup_append'] at hnodup
    rw [flatMap_cons, flatMap_cons]
    exact (h.1 b).append (ih h.2 hnodup.2.1 _) hnodup.2.2

/-- An occurrence that is no call. -/
theorem other (ho : ∀ name callee arguments site,
    o ≠ .call name callee arguments site) (b : Names) : b.Exchanges [o] [] where
  order := by
    rcases b.step_callees o with ⟨hcallees, hlast⟩ | ⟨name, callee, arguments, site, rfl, -⟩
    · exact ⟨[], by simp [hcallees], by simp, hlast ▸ .nil _⟩
    · exact absurd rfl (ho name callee arguments site)
  sites := by
    intro name callee arguments site hmem
    exact absurd (mem_singleton.mp hmem).symm (ho name callee arguments site)
  types := by
    intro before name callee arguments site after heq
    have hmem : .call name callee arguments site ∈ [o] := by simp [heq]
    exact absurd (mem_singleton.mp hmem).symm (ho name callee arguments site)

theorem call (name : String) (callee : Site) (arguments : Nat) (site : Site) (b : Names) :
    b.Exchanges [.call name callee arguments site] [site.id] where
  order := by
    rcases b.step_callees (.call name callee arguments site) with
      ⟨hcallees, hlast⟩ | ⟨_, _, _, _, heq, hnone, hcallees, hlast⟩
    · exact ⟨[], by simp [hcallees], by simp, hlast ▸ .nil _⟩
    · cases heq
      refine ⟨[(site.id, b.lastId + 1)], ?_, by simp, ?_⟩
      · rw [foldl_cons, foldl_nil, hcallees, insert_of_none hnone]
      · rw [foldl_cons, foldl_nil, hlast]
        exact (Consecutive.nil _).cons
  sites := by
    intro name callee arguments site hmem
    cases mem_singleton.mp hmem
    exact mem_singleton_self _
  types := by
    intro before name' callee' arguments' site' after heq hknown hnone
    cases before with
    | nil =>
      cases heq
      rw [foldl_nil] at hknown hnone
      rwa [foldl_cons, foldl_nil, step_call_type hknown]
    | cons o before => simp at heq

end Exchanges

end Names

/-! ### Plans go through calls in their order -/

/-- Where the calls stand that a move makes known. -/
def Node.callRegion (n : Node) : Move → List NodeId
  | .visit path _ => (n.along path).flatMap Node.ids
  | .call => [n.id]
  | _ => []

/-- The parts of the node that a move goes through. -/
def Move.visited : Move → List Nat
  | .visit [i] _ => [i]
  | _ => []

/-- The move goes through a part of the node, or makes no call known. -/
def Move.isStraight : Move → Bool
  | .visit [_] _ => true
  | .visit _ _ => false
  | .call => false
  | _ => true

/-- The plan goes through parts of the node in their order. -/
def Kind.plansInOrder (role : Role) (k : Kind) : Bool :=
  (k.plan role).all Move.isStraight &&
    decide (((k.plan role).flatMap Move.visited).Sublist (List.range k.form.length))

theorem Kind.plan_inOrder (k : Kind) (role : Role) :
    k.plansInOrder role = true ∨ k = .functionDefinition ∨ k = .functionPrototype := by
  cases k <;> cases role <;> decide

section Order

variable {n : Node}

theorem Node.callRegion_straight (h : move.isStraight = true) :
    n.callRegion move = move.visited.flatMap fun j => (n.field j).flatMap Node.ids := by
  unfold Move.isStraight at h
  split at h
  · simp [callRegion, Move.visited, along]
  · cases h
  · cases h
  · rename_i hvisit hcall
    cases move with
    | visit path role => exact absurd rfl (hvisit path role)
    | call => exact absurd rfl hcall
    | _ => rfl

theorem Node.AllFit.callRegions_straight (h : n.AllFit) (horder : n.kind.plansInOrder role = true) :
    ((n.kind.plan role).flatMap n.callRegion).Sublist n.ids := by
  simp only [Kind.plansInOrder, Bool.and_eq_true, decide_eq_true_eq, all_eq_true] at horder
  obtain ⟨hmoves, hsublist⟩ := horder
  have hregions : (n.kind.plan role).flatMap n.callRegion =
      ((n.kind.plan role).flatMap Move.visited).flatMap
        fun j => (n.field j).flatMap Node.ids := by
    rw [flatMap_assoc]
    exact flatMap_congr fun move hmove => callRegion_straight (hmoves move hmove)
  rw [hregions, ids_eq, flatMap_children, h.fits.length_parts]
  exact (hsublist.flatMap _).trans (sublist_cons_self _ _)

theorem Node.AllFit.callRegions_prototype (h : n.AllFit) (hkind : n.kind = .functionPrototype) :
    ((n.along [0, 0]).flatMap Node.ids ++ (n.along [1]).flatMap Node.ids).Sublist n.ids := by
  obtain ⟨header, name, hids⟩ := h.ids_prototype hkind
  rw [hids]
  refine List.Sublist.cons _ (Sublist.append ?_ (Sublist.refl _))
  exact (sublist_append_left _ _).cons _

theorem Node.AllFit.callRegions_definition (h : n.AllFit)
    (hkind : n.kind = .functionDefinition) :
    ((n.along [0, 0, 0]).flatMap Node.ids ++ ((n.along [0, 1]).flatMap Node.ids ++
      (n.along [1]).flatMap Node.ids)).Sublist n.ids := by
  obtain ⟨prototype, hfit, hpkind, hpath, hids⟩ := h.ids_definition hkind
  rw [hids, hpath, hpath, ← append_assoc]
  exact ((hfit.callRegions_prototype hpkind).append (Sublist.refl _)).cons _

/-- Plans go through calls in pre-order, but that of a block without an instance. -/
theorem Node.AllFit.callRegions (h : n.AllFit) (hopen : n.isOpenBlock = false) (role : Role) :
    ((n.plan role).flatMap n.callRegion).Sublist n.ids := by
  rcases n.plan_cases role with ⟨hplain, hplan⟩ | ⟨hblock, -⟩ | ⟨-, -, hplan⟩
  · obtain ⟨callee, -, hids⟩ := h.ids_plainCall hplain
    rw [hplan, hids]
    simp [callRegion]
  · rw [hopen] at hblock
    cases hblock
  · rw [hplan]
    rcases n.kind.plan_inOrder role with horder | hkind | hkind
    · exact h.callRegions_straight horder
    · rw [hkind]
      simpa [Kind.plan, callRegion] using h.callRegions_definition hkind
    · rw [hkind]
      simpa [Kind.plan, callRegion] using h.callRegions_prototype hkind

/-! ### Where scopes are opened -/

/-- The move neither opens nor leaves a scope, visits apart. -/
def Move.isFlat : Move → Bool
  | .function _ => false
  | .enter _ => false
  | .leave => false
  | _ => true

/-- Whether a node of the kind opens a scope or may have a node below it that does. -/
def Kind.holdsScopes : Kind → Bool
  | .program | .functionDefinition | .functionPrototype | .declarationStatement
  | .compoundStatement | .ifStatement | .switchStatement | .switchCase | .whileStatement
  | .doStatement | .forStatement => true
  | _ => false

theorem Kind.holdsScopes_form (k : Kind) (h : k.holdsScopes = false) :
    (k.form.all fun f => f.kinds.all fun k' => !k'.holdsScopes) = true := by
  cases k <;> first | rfl | exact absurd h (by decide)

theorem Kind.plan_flat (k : Kind) (h : k.holdsScopes = false) (role : Role) :
    (k.plan role).all Move.isFlat = true := by
  cases k <;> cases role <;> first | rfl | exact absurd h (by decide)

theorem Node.AllFit.holdsScopes_child (h : n.AllFit) (hkind : n.kind.holdsScopes = false)
    {m : Node} (hm : m ∈ n.children) : m.kind.holdsScopes = false := by
  obtain ⟨f, hf, hmem⟩ := h.fits.kind_mem hm
  have hform := all_eq_true.mp (n.kind.holdsScopes_form hkind) f hf
  simpa using all_eq_true.mp hform _ hmem

theorem Node.AllFit.holdsScopes (h : n.AllFit) (hkind : n.kind.holdsScopes = false) {m : Node}
    (hm : m ∈ n.preorder) : m.kind.holdsScopes = false :=
  topDown (P := fun m => m.kind.holdsScopes = false) hkind
    (fun _ hn' hkind' _ hc => (h.below hn').holdsScopes_child hkind' hc) hm

theorem Node.perform_flat (h : move.isFlat = true) (hvisit : ∀ path role, move ≠ .visit path role)
    (ho : o ∈ n.perform move) : o.isFlat = true := by
  cases move with
  | visit path role => exact absurd rfl (hvisit path role)
  | declare c path =>
    obtain ⟨m, -, rfl⟩ := mem_map.mp ho
    cases c <;> rfl
  | use c =>
    obtain rfl := mem_singleton.mp ho
    cases c <;> rfl
  | call =>
    obtain ⟨callee, -, ho⟩ := mem_flatMap.mp ho
    obtain ⟨name, -, rfl⟩ := mem_map.mp ho
    rfl
  | function | enter | leave => cases h

namespace Node.AllFit

variable (h : n.AllFit)

include h

/-- Where no scopes are held, none is opened. -/
theorem flat (hkind : n.kind.holdsScopes = false)
    (ho : o ∈ n.occurrences role) : o.isFlat = true := by
  induction n using strongInduction generalizing role with
  | h n ih =>
    rw [h.occurrences_eq, mem_flatMap] at ho
    obtain ⟨move, hmove, ho⟩ := ho
    have hflat : move.isFlat = true := by
      rcases n.plan_cases role with ⟨-, hplan⟩ | ⟨-, hplan⟩ | ⟨-, -, hplan⟩
      · rw [hplan] at hmove
        rcases mem_pair.mp hmove with rfl | rfl <;> rfl
      · rw [hplan] at hmove
        simp only [mem_cons, not_mem_nil, or_false] at hmove
        rcases hmove with rfl | rfl | rfl <;> rfl
      · rw [hplan] at hmove
        exact all_eq_true.mp (n.kind.plan_flat hkind role) move hmove
    cases move with
    | visit path role' =>
      obtain ⟨m, hm, ho⟩ := mem_flatMap.mp ho
      obtain ⟨c, hc, hmc⟩ := below_of_visit hmove hm
      have hmn := mem_preorder_of_mem_child hc hmc
      exact ih c hc m hmc (h.below hmn) (h.holdsScopes hkind hmn) ho
    | declare | use | call => exact perform_flat hflat (by simp) ho
    | function | enter | leave => cases hflat

/-! ### What a tree exchanges -/

theorem occurrences_block (hopen : n.isOpenBlock = true)
    (role : Role) :
    n.occurrences role =
      ((n.field 0).flatMap (occurrences .plain) ++
        (n.field 3).flatMap (occurrences .plain)) ++
          (n.field 3).flatMap fun d => (d.field 1).flatMap (occurrences .plain) := by
  have hplain : n.isPlainCall = false := by
    simp [isPlainCall, (isOpenBlock_iff.mp hopen).1]
  rw [h.occurrences_eq, plan, hplain, hopen]
  simp [Node.perform, along, flatMap_assoc]

/-- The calls in the members of a block as variables are those in its members. -/
theorem call_of_member (hkind : n.kind = .structDeclaration) {q : Node}
    (hq : q ∈ n.field 1) {site : Site}
    (ho : .call name callee arguments site ∈ q.occurrences .plain) :
    .call name callee arguments site ∈ n.occurrences .plain := by
  obtain ⟨hqfit, hqkind⟩ := h.of_field hq (by rw [hkind]; rfl)
  have hplan : ∀ {m : Node} (role : Role), m.kind = n.kind ∨ m.kind = q.kind →
      m.plan role = m.kind.plan role := by
    intro m role hm
    refine plan_of_kind ?_ ?_ role <;> rcases hm with hm | hm <;> simp [hm, hkind, hqkind]
  have hdimensions : .call name callee arguments site ∈ q.occurrences .member := by
    rw [hqfit.occurrences_eq, hplan _ (.inr rfl), hqkind] at ho ⊢
    simpa [Kind.plan, Node.perform, NameClass.declares] using ho
  rw [h.occurrences_eq, hplan _ (.inl rfl), hkind]
  simp only [Kind.plan, flatMap_cons, flatMap_nil, append_nil, mem_append,
    Node.perform]
  refine .inr (mem_flatMap.mpr ⟨q, ?_, hdimensions⟩)
  simpa [along] using hq

/-- What a move of a plan exchanges. -/
theorem exchanges_move (hmove : move ∈ n.plan role) (hnodup : (n.callRegion move).Nodup)
    (hbelow : ∀ c ∈ n.children, ∀ m ∈ c.preorder, ∀ (role' : Role) (b : Names), m.Distinct →
      b.Exchanges (m.occurrences role') m.ids) (b : Names) :
    b.Exchanges (n.perform move) (n.callRegion move) := by
  have hother : ∀ os : List Occurrence,
      (∀ o ∈ os, ∀ name callee arguments site, o ≠ .call name callee arguments site) →
      b.Exchanges os [] := by
    intro os hos
    have hnone : os.flatMap (fun _ => ([] : List NodeId)) = [] :=
      flatMap_eq_nil_iff.mpr fun _ _ => rfl
    have hrun := Names.Exchanges.flatMap (l := os) (f := fun o => [o]) (g := fun _ => [])
      (fun o ho => .other (hos o ho)) (by rw [hnone]; exact nodup_nil) b
    rwa [hnone, flatMap_singleton'] at hrun
  cases move with
  | visit path role' =>
    refine Names.Exchanges.flatMap (fun m hm b => ?_) hnodup b
    obtain ⟨c, hc, hmc⟩ := below_of_visit hmove hm
    exact hbelow c hc m hmc role' b ((nodup_flatMap.mp hnodup).1 m hm)
  | call =>
    have hplain := call_mem_plan.mp hmove
    obtain ⟨callee, t', arguments, ts, t'', heq⟩ := h.plainCall_eq hplain
    have hperform : n.perform .call =
        [.call callee.token.text ⟨callee.name, callee.span⟩ (argumentCount (n.field 2))
          n.site] := by
      rw [heq]
      rfl
    rw [hperform]
    exact .call callee.token.text ⟨callee.name, callee.span⟩ _ n.site b
  | declare c path =>
    refine hother _ fun o ho => ?_
    obtain ⟨m, -, rfl⟩ := mem_map.mp ho
    cases c <;> simp [NameClass.declares]
  | use c =>
    refine hother _ fun o ho => ?_
    obtain rfl := mem_singleton.mp ho
    cases c <;> simp [NameClass.uses]
  | function path =>
    refine hother _ fun o ho => ?_
    obtain ⟨prototype, -, ho⟩ := mem_flatMap.mp ho
    rcases mem_pair.mp ho with rfl | rfl
    · unfold functionOccurrence
      split <;> simp
    · simp
  | enter name | leave => exact hother _ (by simp [Node.perform])

/-- A block without an instance exchanges what its qualifiers and members do: when the members are
gone through again, as variables, their calls are settled. -/
theorem exchanges_block (hdistinct : n.Distinct)
    (hopen : n.isOpenBlock = true) (role : Role)
    (hbelow : ∀ c ∈ n.children, ∀ b : Names, b.Exchanges (c.occurrences .plain) c.ids)
    (b : Names) : b.Exchanges (n.occurrences role) n.ids := by
  have hkind := (isOpenBlock_iff.mp hopen).1
  have hsublist : ((n.field 0).flatMap Node.ids ++ (n.field 3).flatMap Node.ids).Sublist n.ids := by
    have hfields : [0, 3].Sublist (List.range n.parts.length) := by
      rw [h.fits.length_parts, hkind]
      decide
    rw [ids_eq, flatMap_children]
    refine List.Sublist.cons _ ?_
    simpa using hfields.flatMap fun j => (n.field j).flatMap Node.ids
  have hnodup := hsublist.nodup hdistinct
  rw [nodup_append'] at hnodup
  have hmember : ∀ d ∈ n.field 3, d.AllFit ∧ d.kind = .structDeclaration :=
    fun d hd => h.of_field hd (by rw [hkind]; rfl)
  have hfields : ∀ j (_ : ((n.field j).flatMap Node.ids).Nodup) (b : Names),
      b.Exchanges ((n.field j).flatMap (occurrences .plain))
        ((n.field j).flatMap Node.ids) := fun j hj =>
    .flatMap (fun c hc => hbelow c (mem_children_iff.mpr ⟨j, hc⟩)) hj
  have hfirst := (hfields 0 hnodup.1 b).append (hfields 3 hnodup.2.1 _) hnodup.2.2
  have hflat : ∀ m, ∀ c ∈ n.children, m ∈ c.preorder → ∀ role, ∀ o ∈ m.occurrences role,
      o.isFlat = true := fun m c hc hm role o ho =>
    ((h.child hc).below hm).flat ((h.child hc).holdsScopes
      (h.holdsScopes_child (by rw [hkind]; rfl) hc) hm) ho
  rw [h.occurrences_block hopen]
  refine (hfirst.append_settled (fun o ho => ?_) fun name callee arguments site ho => ?_).mono
    hsublist
  · obtain ⟨d, hd, ho⟩ := mem_flatMap.mp ho
    obtain ⟨q, hq, ho⟩ := mem_flatMap.mp ho
    refine hflat q d (mem_children_iff.mpr ⟨3, hd⟩) ?_ .plain o ho
    exact mem_preorder_of_mem_child (mem_children_iff.mpr ⟨1, hq⟩) q.mem_preorder_self
  · obtain ⟨d, hd, ho⟩ := mem_flatMap.mp ho
    obtain ⟨q, hq, ho⟩ := mem_flatMap.mp ho
    have hmem : .call name callee arguments site ∈
        (n.field 3).flatMap (occurrences .plain) :=
      mem_flatMap.mpr ⟨d, hd, (hmember d hd).1.call_of_member (hmember d hd).2 hq ho⟩
    refine ⟨?_, hfirst.sites name callee arguments site (mem_append_right _ hmem)⟩
    rw [foldl_append]
    refine Names.settles_of_mem (fun o ho => ?_) hmem
    obtain ⟨d, hd, ho⟩ := mem_flatMap.mp ho
    exact hflat d d (mem_children_iff.mpr ⟨3, hd⟩) d.mem_preorder_self .plain o ho

/-- **Callees are exchanged in pre-order**, each when its call is first come upon. -/
theorem exchanges (hdistinct : n.Distinct) (role : Role) (b : Names) :
    b.Exchanges (n.occurrences role) n.ids := by
  induction n using strongInduction generalizing role b with
  | h n ih =>
    have hbelow : ∀ c ∈ n.children, ∀ m ∈ c.preorder, ∀ (role' : Role) (b : Names), m.Distinct →
        b.Exchanges (m.occurrences role') m.ids := fun c hc m hm role' b hm' =>
      ih c hc m hm (h.below (mem_preorder_of_mem_child hc hm)) hm' role' b
    cases hopen : n.isOpenBlock with
    | true =>
      refine h.exchanges_block hdistinct hopen role (fun c hc b => ?_) b
      exact hbelow c hc c c.mem_preorder_self .plain b (hdistinct.below
        (child_mem_preorder hc))
    | false =>
      have hsublist := h.callRegions hopen role
      have hnodup := hsublist.nodup hdistinct
      rw [h.occurrences_eq]
      refine (Names.Exchanges.flatMap (fun move hmove b => ?_) hnodup b).mono hsublist
      exact h.exchanges_move hmove ((nodup_flatMap.mp hnodup).1 move hmove) hbelow b

end Node.AllFit

end Order

end ShaderSource
