import ShaderSource.Proofs.ProgramRenaming
import ShaderSource.Proofs.Pruning

/-!
# Separators in step with nodes

In a tree that was read, a list with separators has one separator fewer than it has nodes, and all
of them are commas. Only the list of an initializer can have one more, which then stands behind the
last node. The productions are checked for this once: no other node takes a list that may trail.

Visits keep it so, whatever they drop and swap, if the nodes that they bring have it. A node that
stays and is not the last of its list is followed by the separator that followed it before.

## Main results

* `Program.punctuated_of_parse`: trees that are read have their separators in step.
* `Node.Revises.punctuated`: so have revised trees.
* `Node.punctuated_through`: both, with what a visit makes of a tree.
-/

namespace ShaderSource

open List Node ShaderSource.Part

variable {good : Token → Prop} {kind : Kind} {n n' : Node} {p q : Part} {mayTrail : Bool}

/-! ### Punctuated trees -/

/-- The separators of a part. -/
def Part.separators : Part → List Token
  | .separated _ ts => ts
  | _ => []

/-- Whether a part has one separator fewer than it has nodes, or as many where it may trail. -/
def Part.counts (mayTrail : Bool) : Part → Bool
  | .separated ns ts => ts.length == ns.length - 1 || mayTrail && ts.length == ns.length
  | _ => true

/-- A part has its separators in step, and all of them are good. -/
@[mk_iff]
structure Part.Punctuated (good : Token → Prop) (mayTrail : Bool) (p : Part) : Prop where
  counts : p.counts mayTrail = true
  good : ∀ t ∈ p.separators, good t

/-- All parts of a node have their separators in step. Lists of initializers may trail. -/
def Node.Punctuated (good : Token → Prop) (n : Node) : Prop :=
  ∀ p ∈ n.parts, p.Punctuated good (n.kind == .initializerList)

theorem Part.counts_inStep (h : p.counts mayTrail = true) : p.inStep = true := by
  cases p with
  | separated ns ts =>
    simp only [Part.counts, inStep, Bool.or_eq_true, Bool.and_eq_true, beq_iff_eq,
      decide_eq_true_eq] at h ⊢
    omega
  | _ => rfl

theorem Node.inStep_of_punctuated (h : n.All (Node.Punctuated good)) : n.InStep :=
  fun m hm p hp => counts_inStep (h m hm p hp).counts

theorem Part.Punctuated.plain (hcounts : p.counts mayTrail = true) (hnone : p.separators = []) :
    p.Punctuated good mayTrail :=
  ⟨hcounts, by simp [hnone]⟩

/-- Parts that are alike have the same separators, and as many nodes. -/
theorem Part.Alike.punctuated_iff {R : Node → Node → Prop} (h : Part.Alike R p q) :
    p.Punctuated good mayTrail ↔ q.Punctuated good mayTrail := by
  have heq : p.counts mayTrail = q.counts mayTrail ∧ p.separators = q.separators := by
    cases h with
    | separated hns => simp only [Part.counts, separators, hns.length_eq, and_self]
    | text | token | optToken | child | noChild | optChild | list | noBranch | branch =>
      exact ⟨rfl, rfl⟩
  rw [Part.punctuated_iff, Part.punctuated_iff, heq.1, heq.2]

theorem Part.punctuated_alike {R : Node → Node → Prop} {ps qs : List Part}
    (h : ∀ p ∈ ps, p.Punctuated good mayTrail) (halike : List.Forall₂ (Part.Alike R) ps qs) :
    ∀ q ∈ qs, q.Punctuated good mayTrail := by
  intro q hq
  obtain ⟨p, hp, hpq⟩ := exists_counterpart halike hq
  exact hpq.punctuated_iff.mp (h p hp)

/-! ### Trees that are read -/

/-- The token is a comma. -/
def Token.IsComma (t : Token) : Prop :=
  t.text = ","

theorem Lexeme.isComma_of_accepts {l : Lexeme} (h : (Terminal.punct [","]).accepts l = true) :
    l.token.IsComma := by
  simp only [Terminal.accepts, Bool.and_eq_true, contains_iff_mem, mem_singleton] at h
  exact h.2

mutual

/-- Whether the items read lists that trail only where that may be. -/
def Item.countsAll (mayTrail : Bool) : List Item → Bool
  | [] => true
  | item :: items => item.counts mayTrail && Item.countsAll mayTrail items

/-- The same for an item. -/
def Item.counts (mayTrail : Bool) : Item → Bool
  | .separated mode _ => mode != .trailing || mayTrail
  | .empty part => part.counts mayTrail && part.separators.isEmpty
  | .choose _ _ yes no => Item.countsAll mayTrail yes && Item.countsAll mayTrail no
  | _ => true

end

/-- What a judgement says about separators. -/
def Judgement.Punctuated : Judgement → Prop
  | .parts items ps => ∀ mayTrail, Item.countsAll mayTrail items = true →
      ∀ p ∈ ps, p.Punctuated Token.IsComma mayTrail
  | .item it ps => ∀ mayTrail, it.counts mayTrail = true →
      ∀ p ∈ ps, p.Punctuated Token.IsComma mayTrail
  | .tail _ rest => ∀ a ∈ rest, a.1.IsComma
  | _ => True

/-- A list that was read has a separator before each node but the first. -/
theorem Part.punctuated_separatedPart {rest : List (Token × Node)} (h : ∀ a ∈ rest, a.1.IsComma) :
    (Parser.separatedPart n rest).Punctuated Token.IsComma mayTrail where
  counts := by simp [Parser.separatedPart, Part.counts]
  good := forall_mem_map.mpr h

/-- What is derived is punctuated: the separators are commas, in step with
their nodes. -/
theorem Derives.punctuated {input : Input} {J : Judgement} {i j : Nat} (h : Derives input J i j) :
    J.Punctuated := by
  have hplain : ∀ {it : Item} {p : Part}, (∀ mayTrail, p.counts mayTrail = true) →
      p.separators = [] → Judgement.Punctuated (.item it [p]) := by
    intro it p hcounts hnone mayTrail _ q hq
    obtain rfl := mem_singleton.mp hq
    exact .plain (hcounts _) hnone
  induction h with
  | nil | forbid => exact fun _ _ p hp => absurd hp not_mem_nil
  | cons _ _ ihps ihqs =>
    intro mayTrail hcounts
    simp only [Item.countsAll, Bool.and_eq_true] at hcounts
    rw [forall_mem_append]
    exact ⟨ihps _ hcounts.1, ihqs _ hcounts.2⟩
  | token | presentToken | child | present | optional | absent | list | none | single | branch =>
    exact hplain (fun _ => rfl) rfl
  | separated _ _ _ ihrest =>
    intro mayTrail _ p hp
    obtain rfl := mem_singleton.mp hp
    exact punctuated_separatedPart ihrest
  | trailing _ _ hcomma _ ihrest =>
    intro mayTrail hcounts p hp
    obtain rfl := mem_singleton.mp hp
    obtain rfl : mayTrail = true := by simpa [Item.counts] using hcounts
    refine ⟨by simp [Part.counts], ?_⟩
    rw [separators, forall_mem_append, forall_mem_map, forall_mem_singleton]
    exact ⟨ihrest, Lexeme.isComma_of_accepts hcomma⟩
  | empty =>
    intro mayTrail hcounts p hp
    obtain rfl := mem_singleton.mp hp
    simp only [Item.counts, Bool.and_eq_true, List.isEmpty_iff] at hcounts
    exact .plain hcounts.1 hcounts.2
  | itemsYes _ ih =>
    intro mayTrail hcounts
    simp only [Item.counts, Bool.and_eq_true] at hcounts
    exact ih _ hcounts.1
  | itemsNo _ ih =>
    intro mayTrail hcounts
    simp only [Item.counts, Bool.and_eq_true] at hcounts
    exact ih _ hcounts.2
  | tailNil => exact fun _ ha => absurd ha not_mem_nil
  | tailCons hcomma _ _ _ ih =>
    exact forall_mem_cons.mpr ⟨Lexeme.isComma_of_accepts hcomma, ih⟩
  | _ => trivial

/-- Whether a node that is made in the given way has its separators in step. -/
def Making.counts : Making → Bool
  | .whole kind items | .around _ kind items => Item.countsAll (kind == .initializerList) items
  | .joined _ => true

theorem Grammar.makes_counting : Grammar.Makes Making.counts fun _ => true where
  rules r := by
    cases r with
    | binary level =>
      revert level
      decide +kernel
    | _ => decide +kernel
  initializer := by decide +kernel

theorem Start.phrase_counting (start : Start) :
    start.phrase.makes Making.counts (fun _ => true) = true := by
  cases start <;> decide +kernel

theorem Making.Makes.punctuated {input : Input} {making : Making} (hcounts : making.counts = true)
    (h : making.Makes input n) : n.Punctuated Token.IsComma := by
  cases h with
  | whole hps => exact hps.punctuated _ hcounts
  | around _ hps => exact forall_mem_cons.mpr ⟨.plain rfl rfl, hps.punctuated _ hcounts⟩
  | joined _ hrest =>
    exact forall_mem_singleton.mpr (punctuated_separatedPart hrest.punctuated)

theorem readTree_punctuated {start : Start} {input : Input} {source : Option String} {root : Node}
    (h : readTree start input source = .ok root) : root.All (Node.Punctuated Token.IsComma) := by
  obtain ⟨ns, j, rfl, hns, -⟩ := readTree_sound h
  refine all_mk ?_ ?_
  · exact forall_mem_cons.mpr ⟨.plain rfl rfl, forall_mem_singleton.mpr (.plain rfl rfl)⟩
  · simpa [nodes] using hns.makes Grammar.makes_counting
      (fun _ _ hcounts hmakes => hmakes.punctuated hcounts) start.phrase_counting

theorem Node.Punctuated.number (h : n.All (Node.Punctuated good)) (last : NodeId) :
    (n.number last).1.All (Node.Punctuated good) := by
  intro m hm
  obtain ⟨⟨kind, id, span, ps⟩, hm', last', rfl⟩ := mem_number hm
  have hparts := h _ hm'
  rw [Node.number]
  exact punctuated_alike hparts
    (Node.number_alike (R := fun _ _ => True) (fun _ _ _ => trivial) _)

theorem Node.Punctuated.exchangeCallees (h : n.All (Node.Punctuated good))
    (callees : Registry NodeId NodeId) :
    (n.exchangeCallees callees).All (Node.Punctuated good) := by
  have halike : ∀ {ps : List Part} {mayTrail}, (∀ p ∈ ps, p.Punctuated good mayTrail) →
      ∀ q ∈ ps.map (mapNodes (Node.exchangeCallees callees)), q.Punctuated good mayTrail :=
    fun hps => punctuated_alike hps
      (mapNodes_alike_all (R := fun _ _ => True) fun _ _ => trivial)
  intro m hm
  rcases mem_exchangeCallees callees hm with ⟨m', hm', rfl⟩ | ⟨_, _, _, _, -, rfl⟩
  · have hparts := h _ hm'
    rcases m'.exchangeCallees_cases callees with heq | ⟨_, _, _, _, _, rfl, -, heq⟩
    · rw [heq]
      obtain ⟨kind, id, span, ps⟩ := m'
      exact halike hparts
    · rw [heq]
      exact forall_mem_cons.mpr
        ⟨.plain rfl rfl, halike (forall_mem_cons.mp hparts).2⟩
  · exact forall_mem_singleton.mpr (.plain rfl rfl)

/-- The tree of a program that was read has its separators in step, and they are commas. -/
theorem Program.punctuated_of_parse {text : String} {options : Options} {p : Program}
    (h : Program.parse text options = .ok p) : p.root.All (Node.Punctuated Token.IsComma) := by
  obtain ⟨tree, b, htree, -, rfl⟩ := Program.parse_eq_ok h
  exact Node.Punctuated.exchangeCallees (Node.Punctuated.number (readTree_punctuated htree) 0)
    b.callees

/-! ### Revised trees -/

section Revises

variable {drops : Kind → SlotKind → Prop} {swaps : Node → Node → Prop}

/-- A revised part has its separators in step. -/
theorem Part.Revises.punctuated (h : Part.Revises drops swaps kind q p)
    (hp : p.Punctuated good mayTrail) : q.Punctuated good mayTrail := by
  cases h with
  | alike h => exact h.punctuated_iff.mpr hp
  | noChild | noBranch | list => exact .plain rfl rfl
  | @separated _ ms ns us ts kept _ hkept hms hus =>
    have hnodes := hms.length_eq.trans (length_filterMap_getElem? hkept)
    have hseparators := hus.length_eq
    obtain ⟨hcounts, hgood⟩ := hp
    constructor
    · simp only [Part.counts, Bool.or_eq_true, Bool.and_eq_true, beq_iff_eq] at hcounts ⊢
      split at hseparators
      · rename_i htrailing
        have hlength := hkept.length_le
        rw [length_range] at hlength
        rcases hcounts with hfewer | ⟨htrail, -⟩
        · omega
        · exact .inr ⟨htrail, by omega⟩
      · rw [length_dropLast] at hseparators
        omega
    · intro t ht
      obtain ⟨i, -, hi⟩ := exists_counterpart hus ht
      exact hgood t (mem_of_getElem? hi)

/-- A revised tree has its separators in step, if the nodes that were swapped in have. -/
theorem Node.Revises.punctuated (h : n'.Revises drops swaps n)
    (hswaps : ∀ n m, swaps n m → m.All (Node.Punctuated good))
    (hn : n.All (Node.Punctuated good)) : n'.All (Node.Punctuated good) := by
  induction n using Node.induction generalizing n' with
  | h n ih =>
    cases h with
    | swapped h => exact hswaps _ _ h
    | @mk kind id span qs ps h =>
      have hparts := allRevise_iff.mp h
      rw [all_iff, children_mk] at hn
      refine all_mk (fun q hq => ?_) fun m hm => ?_
      · obtain ⟨p, hp, hrevises⟩ := exists_counterpart hparts.flip hq
        exact hrevises.punctuated (hn.1 p hp)
      · obtain ⟨q, hq, hmq⟩ := mem_flatMap.mp hm
        obtain ⟨p, hp, hrevises⟩ := exists_counterpart hparts.flip hq
        obtain ⟨ns, hns, hsub⟩ := hrevises.nodes
        obtain ⟨c, hc, hmc⟩ := exists_counterpart hns.flip hmq
        have hchild : c ∈ ps.flatMap nodes := mem_flatMap.mpr ⟨p, hp, hsub.subset hc⟩
        exact ih c (by rwa [children_mk]) hmc (hn.2 c hchild)

end Revises

/-- **Separators stay in step with nodes**: they are in step in every tree that is read, and a visit
that succeeds leaves them so, if the nodes that it brings have them so. The tree after the visit is
the one before with the edits of the walk applied, and a revision of it; each node that stays in a
list is what the edits at its own address make of it, and keeps the separator behind it. -/
theorem Node.punctuated_through :
    (∀ text options p, Program.parse text options = .ok p →
      p.root.All (Node.Punctuated Token.IsComma)) ∧
    (∀ {σ : Type} (good : Token → Prop) (root tree : Node) (v : Visitor σ) (s s' : σ) (es : Edits),
      root.All (Node.Punctuated good) → (root.walk v [] none).run.run s = (.ok es, s') →
      (∀ a m, (a, .replace m) ∈ es → m.All (Node.Punctuated good)) →
      (root.visit v s).result = .ok tree →
      tree.All (Node.Punctuated good) ∧ tree = root.patch es ∧
        ∃ qs, tree = .mk root.kind root.id root.span qs ∧
          List.Forall₂ (Part.Revises (fun _ _ => True) (fun _ m => ∃ a, (a, .replace m) ∈ es)
            root.kind) qs root.parts) ∧
    ∀ es slot ns ts, (Part.separated ns ts).inStep = true → ∃ kept us,
      (Part.separated ns ts).patch es slot = .separated (kept.map Prod.snd) us ∧
        Part.Keeps es slot ns ts kept us := by
  refine ⟨fun _ _ _ => Program.punctuated_of_parse, ?_,
    fun _ slot _ _ hstep => Part.patch_keeps slot hstep⟩
  intro σ good root tree v s s' es hroot hwalk hreplaced hvisit
  obtain ⟨qs, htree, hqs⟩ := Node.visit_revises (Node.inStep_of_punctuated hroot) hwalk hvisit
  refine ⟨?_, Except.ok.inj (hvisit.symm.trans (Node.visit_of_walk hwalk).1), qs, htree, hqs⟩
  obtain ⟨kind, id, span, ps⟩ := root
  subst htree
  exact (Node.Revises.mk (Part.allRevise_iff.mpr hqs)).punctuated
    (fun _ m ⟨a, hm⟩ => hreplaced a m hm) hroot

/-- A list that trails and one that does not, with nodes removed from both. -/
theorem Node.punctuated_through_removal :
    ∃ p tree, Program.parse "int a[] = \x7b1, 2, 3, \x7d; int b = f(x, y, z);" Options.default =
        .ok p ∧
      (p.root.visit (Visitor.removing fun path => ["1", "3", "z"].contains path.node.source)
        ()).result = .ok tree ∧
      tree.source = "int a[] = \x7b2, \x7d; int b = f(x, y);" ∧
      tree.All (Node.Punctuated Token.IsComma) := by
  let v := Visitor.removing fun path => ["1", "3", "z"].contains path.node.source
  have heval :
      ((Program.parse "int a[] = \x7b1, 2, 3, \x7d; int b = f(x, y, z);"
        Options.default).toOption.bind fun p =>
          ((p.root.walk v [] none).run.run ()).1.toOption.bind fun es =>
            (p.root.visit v ()).result.toOption.map fun tree =>
              (es.all fun a => a.2.result.isNone, tree.source)) =
        some (true, "int a[] = \x7b2, \x7d; int b = f(x, y);") := by
    decide +kernel
  obtain ⟨p, hp, heval⟩ := Option.bind_eq_some_iff.mp heval
  obtain ⟨es, hes, heval⟩ := Option.bind_eq_some_iff.mp heval
  obtain ⟨tree, htree, heval⟩ := Option.map_eq_some_iff.mp heval
  obtain ⟨hremoved, hsource⟩ := Prod.mk.inj heval
  have hparse := eq_ok_of_toOption hp
  have hvisit := eq_ok_of_toOption htree
  refine ⟨p, tree, hparse, hvisit, hsource, ?_⟩
  refine (Node.punctuated_through.2.1 _ p.root tree v () () es
    (Node.punctuated_through.1 _ _ p hparse) (Prod.ext (eq_ok_of_toOption hes) rfl)
    (fun a m hm => ?_) hvisit).1
  have hnone := all_eq_true.mp hremoved _ hm
  cases hnone

end ShaderSource
