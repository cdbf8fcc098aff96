import ShaderSource.Proofs.Formatting
import ShaderSource.Proofs.Overloading

/-!
# Formatting and overloads

Functions are told apart by the texts of their signatures, and an array dimension becomes part of
such a text as it is written, comments and blanks inside it included. So formatting does matter to
the functions of a program, but through the signatures of prototypes and definitions only: where
these are the same, so are the functions. And they have to be the same, since a function keeps the
key under which it was declared, with the node that has declared it.

## Main results

* `Occurrence.map_outline_signed`: signatures are all that is missing in outlines without them.
* `Names.lists_foldl`: a function that is declared stays under its key.
* `Program.BoundAs.lists_unique`: a declaration is listed under one key only.
* `Program.overloads_formatting`: when the functions of programs that differ in formatting are the
  same.
-/

namespace ShaderSource

open List Occurrence Option Registry ScopeTree

variable {o : Occurrence} {name key' key : String} {i : NodeId} {os : List Occurrence}
  {r : Registration}

/-! ### Signatures of occurrences -/

/-- The signature of a prototype or definition. -/
def Occurrence.signature? : Occurrence → Option Signature
  | .declareFunction _ signature _ => some signature
  | .defineFunction _ signature _ => some signature
  | _ => none

/-- The name of a prototype or definition, and the node. -/
def Occurrence.function? : Occurrence → Option (String × NodeId)
  | .declareFunction name _ site => some (name, site.id)
  | .defineFunction name _ site => some (name, site.id)
  | _ => none

/-- The occurrence with another signature, if it has one. -/
def Occurrence.resign (o : Occurrence) (signature : Option Signature) : Occurrence :=
  match o, signature with
  | .declareFunction name _ site, some signature => .declareFunction name signature site
  | .defineFunction name _ site, some signature => .defineFunction name signature site
  | o, _ => o

/-- The signatures of the prototypes and definitions in a tree, in the order of binding. -/
def Node.signatures (n : Node) : List Signature :=
  (n.occurrences .plain).filterMap signature?

namespace Occurrence

theorem outline_true (o : Occurrence) : o.outline true = (o.outline false).resign o.signature? := by
  cases o <;> rfl

theorem isSome_signature? (o : Occurrence) :
    (o.outline false).signature?.isSome = o.signature?.isSome := by
  cases o <;> rfl

theorem function?_outline (o : Occurrence) (signed : Bool) :
    (o.outline signed).function? = o.function? := by
  cases o <;> rfl

/-- What registers a function by its signature, whatever is known before. -/
theorem registration_of_signature {s : Signature} (h : o.signature? = some s) :
    ∃ r name i, o.function? = some (name, i) ∧
      (∀ b, Names.registration? b o = some (r, name, i)) ∧ r.isCall = false ∧ r.signature = s := by
  cases o with
  | declareFunction name s' site =>
    cases h
    exact ⟨.declare s, name, site.id, rfl, fun _ => rfl, rfl, rfl⟩
  | defineFunction name s' site =>
    cases h
    exact ⟨.define s, name, site.id, rfl, fun _ => rfl, rfl, rfl⟩
  | _ => cases h

/-- Functions are declared and defined outside of blocks. -/
theorem About.function_node {root : Node} (h : o.About root) (ho : o.function? = some (name, i)) :
    ∃ n ∈ root.preorder, n.id = i ∧ n.kind.isBelowBlocks = false := by
  cases h with
  | declareFunction hn hkind _ _ | defineFunction hn hkind _ =>
    cases ho
    exact ⟨_, hn, rfl, by rw [hkind]; rfl⟩
  | _ => cases ho

/-- Signatures are all that is missing in outlines without them. -/
theorem map_outline_signed {os' : List Occurrence}
    (h : os.map (Occurrence.outline false) = os'.map (Occurrence.outline false))
    (hsignatures : os.filterMap signature? = os'.filterMap signature?) :
    os.map (Occurrence.outline true) = os'.map (Occurrence.outline true) := by
  induction os generalizing os' with
  | nil =>
    obtain rfl : os' = [] := map_eq_nil_iff.mp h.symm
    rfl
  | cons o os ih =>
    cases os' with
    | nil => cases h
    | cons o' os' =>
      rw [map_cons, map_cons, cons.injEq] at h
      have hsome : o.signature?.isSome = o'.signature?.isSome := by
        rw [← isSome_signature? o, h.1, isSome_signature?]
      have hsame : o.signature? = o'.signature? ∧
          os.filterMap signature? = os'.filterMap signature? := by
        rw [filterMap_cons, filterMap_cons] at hsignatures
        cases hs : o.signature? <;> cases hs' : o'.signature? <;>
          simp_all
      rw [map_cons, map_cons, outline_true, outline_true, h.1, hsame.1,
        ih h.2 hsame.2]

end Occurrence

/-! ### Declared functions stay -/

/-- A function of the name is registered under the key, and lists the node. -/
def Overloads.Lists (os : Overloads) (key : String) (node : NodeId) : Prop :=
  ∃ o, Registry.get? key os = some o ∧ node ∈ o.references

namespace Overloads

variable {os os' : Overloads} {r : Registration} {node i : NodeId} {key : String} {root : Node}

theorem lists_insert_self {o : Overload} (h : i ∈ o.references) :
    Overloads.Lists (Registry.insert key o os) key i :=
  ⟨o, by rw [get?_insert, if_pos rfl], h⟩

theorem Lists.insert (h : os.Lists key i) {o' : Overload} (hsame : key' = key → i ∈ o'.references) :
    Overloads.Lists (Registry.insert key' o' os) key i := by
  by_cases hkey : key' = key
  · subst hkey
    exact lists_insert_self (hsame rfl)
  · obtain ⟨o, hget, hi⟩ := h
    exact ⟨o, by rw [get?_insert, if_neg hkey, hget], hi⟩

/-- What is declared or defined is listed under the key of its signature. -/
theorem Registered.lists_self (h : os.Registered r node os') (hr : r.isCall = false) :
    os'.Lists r.signature.key node := by
  cases h with
  | called hcall => rw [hr] at hcall; cases hcall
  | redeclared | takenOver | added => exact lists_insert_self (by simp)

/-- A declaration stays where it is listed: only functions without one are taken over. -/
theorem Registered.lists (h : os.Registered r node os') (hos : os.Sound root)
    (hi : root.isAny Kind.declaring i = true) (hlists : os.Lists key i) : os'.Lists key i := by
  have hextend : ∀ {key' : String} {o : Overload}, Registry.get? key' os = some o →
      Overloads.Lists (Registry.insert key' (r.extend node o) os) key i := by
    intro key' o hget
    refine hlists.insert fun hkey => ?_
    obtain ⟨o', hget', hmem⟩ := hlists
    rw [← hkey, hget, some.injEq] at hget'
    subst hget'
    simp [hmem]
  cases h with
  | called _ hget _ => exact hextend hget
  | redeclared _ hget => exact hextend hget
  | @takenOver key' o _ hnew hget hcalled _ =>
    obtain ⟨o', hget', hmem⟩ := hlists
    have hne : key' ≠ key := by
      rintro rfl
      rw [hget, some.injEq] at hget'
      subst hget'
      rw [(hos.consistent _ (Registry.mem_of_get? hget)).declaration] at hcalled
      exact find?_eq_none.mp hcalled i hmem hi
    refine Lists.insert ⟨o', ?_, hmem⟩ fun hkey => ?_
    · rw [get?_erase hos.keyed.unique, if_neg hne, hget']
    · rw [hkey, hget'] at hnew
      cases hnew
  | added hnew _ =>
    refine hlists.insert fun hkey => ?_
    obtain ⟨o', hget', -⟩ := hlists
    rw [hkey, hget'] at hnew
    cases hnew

end Overloads

namespace Names

variable {b : Names} {root : Node} (hroot : root.Distinct)

theorem lists_step (hb : b.Valid) (h : ∀ x, (b.scopes.overloads x).Sound root) (o : Occurrence)
    (hi : root.isAny Kind.declaring i = true) (hlists : (b.scopes.overloads name).Lists key i) :
    ((b.step o).scopes.overloads name).Lists key i := by
  obtain ⟨hsome, hnone⟩ := b.overloads_step o
  cases hregistration : b.registration? o with
  | none => rwa [hnone hregistration]
  | some e =>
    obtain ⟨r, name', node⟩ := e
    rw [hsome r name' node hregistration]
    obtain ⟨hregistered, hothers⟩ := hb.scopes.registered r name' node
    by_cases hname : name = name'
    · subst hname
      exact hregistered.lists (h name) hi hlists
    · rwa [hothers name hname]

include hroot

theorem lists_run (hb : b.Valid) (h : ∀ x, (b.scopes.overloads x).Sound root)
    (hos : ∀ o ∈ os, SpeaksOf root o) (hi : root.isAny Kind.declaring i = true)
    (hlists : (b.scopes.overloads name).Lists key i) :
    ((os.foldl Names.step b).scopes.overloads name).Lists key i := by
  induction os generalizing b with
  | nil => exact hlists
  | cons o os ih =>
    rw [forall_mem_cons] at hos
    exact ih (hb.step o) (fun x => sound_step hroot hb h hos.1 x) hos.2
      (lists_step hb h o hi hlists)

/-- **A function keeps the key under which it was declared**, with the node that has declared it. -/
theorem lists_foldl (hb : b.Valid) (h : ∀ x, (b.scopes.overloads x).Sound root)
    {before after : List Occurrence} (hos : ∀ o' ∈ before ++ o :: after, SpeaksOf root o')
    (ho : ∀ b, Names.registration? b o = some (r, name, i)) (hr : r.isCall = false) :
    (((before ++ o :: after).foldl Names.step b).scopes.overloads name).Lists
      r.signature.key i := by
  have hbefore : ∀ o' ∈ before, SpeaksOf root o' := fun o' ho' =>
    hos o' (mem_append_left _ ho')
  have hself : SpeaksOf root o := hos o (mem_append_right _ mem_cons_self)
  have hafter : ∀ o' ∈ after, SpeaksOf root o' := fun o' ho' =>
    hos o' (mem_append_right _ (mem_cons_of_mem _ ho'))
  have hvalid := hb.foldl before
  have hsound : ∀ x, ((before.foldl Names.step b).scopes.overloads x).Sound root :=
    fun x => sound_foldl hroot hb h hbefore x
  have hi : root.isAny Kind.declaring i = true := by
    obtain ⟨n, hn, rfl, hat⟩ := hself b r name i (ho b)
    rw [hroot.isAny hn]
    cases hat with
    | declare hkind _ | define hkind _ => rw [hkind]; rfl
    | call _ => cases hr
  rw [foldl_append, foldl_cons]
  refine lists_run hroot (hvalid.step o) (fun x => sound_step hroot hvalid hsound hself x) hafter
    hi ?_
  rw [((before.foldl Names.step b).overloads_step o).1 r name i (ho _)]
  exact (hvalid.scopes.registered r name i).1.lists_self hr

end Names

/-! ### Keys are unique -/

theorem count_flatMap_of_mem {α β : Type} [BEq β] (f : α → List β) {x : α} {l : List α} (b : β)
    (hx : x ∈ l) : (f x).count b ≤ (l.flatMap f).count b := by
  obtain ⟨before, after, rfl⟩ := append_of_mem hx
  rw [flatMap_append, flatMap_cons, count_append, count_append]
  omega

/-- What two members of a list lead to is there twice. -/
theorem two_le_count_flatMap {α β : Type} [BEq β] [LawfulBEq β] {f : α → List β} {x y : α}
    {l : List α} {b : β} (hx : x ∈ l) (hy : y ∈ l) (hne : x ≠ y) (hfx : b ∈ f x) (hfy : b ∈ f y) :
    2 ≤ (l.flatMap f).count b := by
  obtain ⟨before, after, rfl⟩ := append_of_mem hx
  have hy' : y ∈ before ++ after := by
    simp only [mem_append, mem_cons] at hy ⊢
    rcases hy with hy | rfl | hy
    · exact .inl hy
    · exact absurd rfl hne
    · exact .inr hy
  have hxs := one_le_count_iff.mpr hfx
  have hys := (one_le_count_iff.mpr hfy).trans (count_flatMap_of_mem f b hy')
  rw [flatMap_append, count_append] at hys
  rw [flatMap_append, flatMap_cons, count_append, count_append]
  omega

/-- A node that two functions of a name list is listed twice. -/
theorem ScopeTree.two_le_count_listed {t : ScopeTree} (h : (t.overloads name).Lists key i)
    (h' : (t.overloads name).Lists key' i) (hne : key ≠ key') :
    2 ≤ (t.listed .functions).count i := by
  obtain ⟨o, hget, hi⟩ := h
  obtain ⟨o', hget', hi'⟩ := h'
  have htwice : 2 ≤ ((t.overloads name).flatMap fun e => e.2.references).count i :=
    two_le_count_flatMap (Registry.mem_of_get? hget) (Registry.mem_of_get? hget')
      (fun heq => hne (congrArg Prod.fst heq)) hi hi'
  -- The functions of the name stand in the first scope, which is one of those that are listed.
  obtain ⟨_ | ⟨s, rest⟩⟩ := t
  · have hnone : none = some o := hget
    cases hnone
  · cases hname : Registry.get? name s.functions with
    | none =>
      have hnil : overloads ⟨s :: rest⟩ name = [] := by
        simp [overloads, lookupFunction, ScopeTree.root, hname]
      rw [hnil] at hget
      cases hget
    | some os =>
      have heq : overloads ⟨s :: rest⟩ name = os := by
        simp [overloads, lookupFunction, ScopeTree.root, hname]
      rw [heq] at htwice
      have hmem : (name, os.flatMap fun e => e.2.references) ∈ s.references .functions :=
        mem_map_of_mem (Registry.mem_of_get? hname)
      calc 2 ≤ _ := htwice
        _ ≤ ((s.references .functions).flatMap Prod.snd).count i :=
            count_flatMap_of_mem Prod.snd i hmem
        _ ≤ _ := count_flatMap_of_mem (fun s : Scope =>
            (s.references .functions).flatMap Prod.snd) i mem_cons_self

/-- Prototypes and definitions do not stand in blocks, and are not gone over twice. -/
theorem Node.AllFit.not_mem_revisited {tree n : Node} (h : tree.AllFit) (hdistinct : tree.Distinct)
    (hn : n ∈ tree.preorder) (hkind : n.kind.isBelowBlocks = false) : n.id ∉ tree.revisited := by
  intro hrevisited
  obtain ⟨block, hblock, hopen, hi⟩ := Node.mem_revisited.mp hrevisited
  obtain ⟨x, hx, hids⟩ := mem_flatMap.mp hi
  obtain ⟨m, hm, hid⟩ := Node.mem_ids.mp hids
  have hxkind : x.kind.isBelowBlocks = true := by
    rw [((h.below hblock).of_dimension hopen hx).1]
    rfl
  have hxtree : x ∈ tree.preorder :=
    Node.mem_preorder_trans hblock (Node.mem_along hx)
  obtain rfl := hdistinct.eq_of_id (Node.mem_preorder_trans hxtree hm) hn hid
  rw [(h.below hxtree).isBelowBlocks hxkind hm] at hkind
  cases hkind

namespace Program.BoundAs

variable {p : Program} {tree : Node} {last : NodeId} {b : Names} (h : p.BoundAs tree last b)

include h

/-- A declaration is listed under one key only. -/
theorem lists_unique {n : Node} (hn : n ∈ tree.preorder) (hkind : n.kind.isBelowBlocks = false)
    (hlists : (p.scopes.overloads name).Lists key n.id)
    (hlists' : (p.scopes.overloads name).Lists key' n.id) : key = key' := by
  by_contra hne
  have htwice := two_le_count_listed hlists hlists' hne
  have hcount : (listedNodes (p.scopes.listing .functions)).count n.id ≤
      if n.id ∈ tree.revisited then 2 else 1 := h.count_listing fun htypes => by cases htypes
  rw [if_neg (h.fit.not_mem_revisited h.ids.nodup hn hkind), ← listed_eq] at hcount
  omega

/-- What is declared or defined in the tree is listed under the key of its signature. -/
theorem lists (hsource : tree.FromSource) (ho : o ∈ tree.occurrences .plain)
    (hr : ∀ b, Names.registration? b o = some (r, name, i)) (hcall : r.isCall = false) :
    (p.scopes.overloads name).Lists r.signature.key i := by
  obtain ⟨before, after, hos⟩ := append_of_mem ho
  rw [h.scopes, h.names, hos]
  refine Names.lists_foldl h.distinct (Names.valid_initial _ _) (fun x => .nil) (fun o' ho' => ?_)
    hr hcall
  exact h.toComesFrom.speaksOf hsource (hos ▸ ho')

end Program.BoundAs

/-! ### Programs -/

section Keys

variable {p p' : Program} {tree tree' : Node} {last last' : NodeId} {b b' : Names}

/-- Functions that are the same have been declared with the same keys, occurrence by occurrence. -/
theorem Program.BoundAs.key_eq (h : p.BoundAs tree last b) (h' : p'.BoundAs tree' last' b')
    (hsource : tree.FromSource) (hsource' : tree'.FromSource)
    (hfunctions : p.scopes.root.functions = p'.scopes.root.functions) {o' : Occurrence}
    (ho : o ∈ tree.occurrences .plain) (ho' : o' ∈ tree'.occurrences .plain)
    (hsame : o.outline false = o'.outline false) :
    o.signature?.map Signature.key = o'.signature?.map Signature.key := by
  have hoverloads : ∀ name, p.scopes.overloads name = p'.scopes.overloads name := by
    intro name
    unfold overloads lookupFunction
    rw [hfunctions]
  have hsome : o.signature?.isSome = o'.signature?.isSome := by
    rw [← Occurrence.isSome_signature? o, hsame, Occurrence.isSome_signature?]
  cases hs : o.signature? with
  | none =>
    rw [hs, isSome_none] at hsome
    rw [isSome_eq_false_iff.mp hsome.symm |> isNone_iff_eq_none.mp]
  | some s =>
    rw [hs, isSome_some] at hsome
    obtain ⟨s', hs'⟩ := isSome_iff_exists.mp hsome.symm
    obtain ⟨r, name, i, hfunction, hr, hcall, rfl⟩ := Occurrence.registration_of_signature hs
    obtain ⟨r', name', i', hfunction', hr', hcall', rfl⟩ :=
      Occurrence.registration_of_signature hs'
    have heq : some (name, i) = some (name', i') := by
      rw [← hfunction, ← hfunction', ← function?_outline o false, hsame,
        function?_outline]
    cases heq
    obtain ⟨n, hn, rfl, hkind⟩ := (Node.occurrence_about h.fit ho).function_node hfunction
    have hlists := h.lists hsource ho hr hcall
    have hlists' := h'.lists hsource' ho' hr' hcall'
    rw [← hoverloads] at hlists'
    rw [hs', map_some, map_some, h.lists_unique hn hkind hlists hlists']

theorem Program.BoundAs.keys_eq (h : p.BoundAs tree last b) (h' : p'.BoundAs tree' last' b')
    (hsource : tree.FromSource) (hsource' : tree'.FromSource)
    (hsame : (tree.occurrences .plain).map (Occurrence.outline false) =
      (tree'.occurrences .plain).map (Occurrence.outline false))
    (hfunctions : p.scopes.root.functions = p'.scopes.root.functions) :
    tree.signatures.map Signature.key = tree'.signatures.map Signature.key := by
  unfold Node.signatures
  rw [map_filterMap, map_filterMap, filterMap_eq_flatMap_toList,
    filterMap_eq_flatMap_toList]
  refine flatMap_forall₂ (forall₂_of_map_eq hsame) fun o ho o' ho' hoo' => ?_
  rw [h.key_eq h' hsource hsource' hfunctions ho ho' hoo']

end Keys

theorem Scope.functions_outline (s : Scope) : (s.outline true).functions = s.functions :=
  map_id _

/-- **Formatting matters to functions through signatures only**: the programs of two sources with
lexemes of the same kinds and texts have the same functions, and the same reports about them, if the
signatures of prototypes and definitions are the same. They have not if the keys of these differ. -/
theorem Program.overloads_formatting {text text' : String}
    (hwords : Lexemes.words text = Lexemes.words text') {options : Options} {p p' : Program}
    (hp : Program.parse text options = .ok p) (hp' : Program.parse text' options = .ok p') :
    ∃ tree last tree' last', Program.readNumbered text options = .ok (tree, last) ∧
      Program.readNumbered text' options = .ok (tree', last') ∧
      (tree.signatures = tree'.signatures →
        p.scopes.root.functions = p'.scopes.root.functions ∧
          Diagnostic.outlines true p.diagnostics = Diagnostic.outlines true p'.diagnostics) ∧
      (p.scopes.root.functions = p'.scopes.root.functions →
        tree.signatures.map Signature.key = tree'.signatures.map Signature.key) := by
  obtain ⟨tree, b, htree, hbind, rfl⟩ := Program.parse_eq_ok hp
  obtain ⟨tree', b', htree', hbind', rfl⟩ := Program.parse_eq_ok hp'
  have hbound := Program.boundAs_of_ofTree htree hbind
  have hbound' := Program.boundAs_of_ofTree htree' hbind'
  have hread := Program.readNumbered_of_readTree htree
  have hread' := Program.readNumbered_of_readTree htree'
  have hplain : tree.plain = tree'.plain := by
    have halike := Program.readText_alike hwords options
    rw [htree, htree'] at halike
    obtain ⟨_, heq, hplain⟩ := halike.of_ok rfl
    rwa [Except.ok.inj heq]
  have hnumber := Node.number_plain tree 0
  rw [hplain, Node.number_plain, Prod.mk.injEq] at hnumber
  obtain ⟨hroot, hlast⟩ := hnumber
  have hsame := Node.occurrences_of_plain hroot.symm hbound.fit hbound'.fit hbound.kind
    hbound'.kind
  refine ⟨_, _, _, _, hread, hread', fun hsignatures => ?_,
    hbound.keys_eq hbound' (Program.fromSource_of_readNumbered hread)
      (Program.fromSource_of_readNumbered hread') hsame⟩
  rw [hlast] at hbind'
  obtain ⟨hnames, hdiagnostics⟩ := Binding.ofTree_outline hbind hbind'
    (Occurrence.map_outline_signed hsame hsignatures)
  refine ⟨?_, hdiagnostics⟩
  have hscopes : b.scopes.outline true = b'.scopes.outline true := congrArg Names.scopes hnames
  have hrootScope := congrArg ScopeTree.root hscopes
  rw [ScopeTree.root_outline, ScopeTree.root_outline] at hrootScope
  have hfunctions := congrArg Scope.functions hrootScope
  rwa [Scope.functions_outline, Scope.functions_outline] at hfunctions

/-- A definition that is spaced differently from its prototype is another function. -/
theorem Program.overloads_formatting_spaced :
    ∃ p p',
      Program.parse "void f(int a[1+2]); void f(int a[1+2]) \x7b \x7d" Options.default = .ok p ∧
      Program.parse "void f(int a[1+2]); void f(int a[1 + 2]) \x7b \x7d" Options.default = .ok p' ∧
      (p.scopes.overloads "f").map (fun e => (e.1, e.2.references.length, e.2.defined)) =
        [("void: int[1+2]", 2, true)] ∧
      (p'.scopes.overloads "f").map (fun e => (e.1, e.2.references.length, e.2.defined)) =
        [("void: int[1+2]", 1, false), ("void: int[1 + 2]", 1, true)] ∧
      ∃ tree last tree' last',
        Program.readNumbered "void f(int a[1+2]); void f(int a[1+2]) \x7b \x7d" Options.default =
          .ok (tree, last) ∧
        Program.readNumbered "void f(int a[1+2]); void f(int a[1 + 2]) \x7b \x7d" Options.default =
          .ok (tree', last') ∧
        tree.signatures ≠ tree'.signatures := by
  have hwords : Lexemes.words "void f(int a[1+2]); void f(int a[1+2]) \x7b \x7d" =
      Lexemes.words "void f(int a[1+2]); void f(int a[1 + 2]) \x7b \x7d" := by decide +kernel
  refine Program.exists_of_parse (fun p hparse hp => Program.exists_of_parse
    (fun p' hparse' hp' =>
      have ⟨tree, last, tree', last', hread, hread', hsame, _⟩ :=
        Program.overloads_formatting hwords hparse hparse'
      ⟨hparse, hparse', hp, hp', tree, last, tree', last', hread, hread', fun hsignatures => ?_⟩)
    ?_) ?_
  · have hoverloads : p.scopes.overloads "f" = p'.scopes.overloads "f" := by
      unfold ScopeTree.overloads ScopeTree.lookupFunction
      rw [(hsame hsignatures).1]
    rw [hoverloads, hp'] at hp
    revert hp
    decide
  · decide +kernel
  · decide +kernel

end ShaderSource
