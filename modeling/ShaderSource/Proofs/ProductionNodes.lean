import ShaderSource.Proofs.Derivation
import ShaderSource.Proofs.Tree

/-!
# The nodes that productions make

Which nodes a tree can have is told by its grammar: each is made by a phrase that lists its parts,
by a suffix around another node, or by a list with separators. What holds of all nodes that the
productions make so holds of all nodes of a tree that was read. Whether the productions make only
such nodes is checked on them once.

## Main results

* `Derives.makes`: what holds of all nodes that the productions make.
-/

namespace ShaderSource

/-- Where the node comes from that a suffix stands behind. -/
inductive Making.Head where
  /-- The phrase stands for it, or one of the suffixes has made it. -/
  | read (first : Phrase) (ss : List Suffix)
  /-- It is of that kind, and the suffix follows the one that has made it. -/
  | made (kind : Kind)

/-- How a piece of the grammar makes a node. -/
inductive Making where
  /-- A phrase makes it, with all its parts from the items. -/
  | whole (kind : Kind) (items : List Item)
  /-- A suffix makes it around a node, with its other parts from the items. -/
  | around (inner : Making.Head) (kind : Kind) (items : List Item)
  /-- It is a list with separators. -/
  | joined (kind : Kind)

section Checks

variable (ok : Making → Bool) (plain : Item → Bool)

mutual

/-- Whether all nodes that the phrase makes are made in ways that are `ok`, of items without a
phrase that are `plain`. -/
def Phrase.makes : Phrase → Bool
  | .node kind items => ok (.whole kind items) && Item.makesAll items
  | .rule _ => true
  | .initializer => true
  | .orElse first second => first.makes && second.makes
  | .choose _ _ yes no => yes.makes && no.makes
  | .refuse _ => true
  | .suffixed first _ suffixes => first.makes && Suffix.makesAll (.read first suffixes) suffixes
  | .joined kind item => ok (.joined kind) && item.makes

/-- The same for suffixes around a node that comes from there. -/
def Suffix.makesAll (inner : Making.Head) : List Suffix → Bool
  | [] => true
  | .mk kind items follow :: others =>
    ok (.around inner kind items) && Item.makesAll items && Suffix.makesAll (.made kind) follow &&
      Suffix.makesAll inner others

/-- The same for items. -/
def Item.makesAll : List Item → Bool
  | [] => true
  | item :: items => item.makes && Item.makesAll items

/-- The same for an item. -/
def Item.makes : Item → Bool
  | .token t => plain (.token t)
  | .presentToken t => plain (.presentToken t)
  | .child p => p.makes
  | .present p => p.makes
  | .optional p => p.makes
  | .list _ p => p.makes
  | .separated _ p => p.makes
  | .single p => p.makes
  | .branch t p => plain (.token t) && p.makes
  | .empty part => plain (.empty part) && part.nodes.isEmpty
  | .choose _ _ yes no => Item.makesAll yes && Item.makesAll no
  | .forbid _ _ => true

end

end Checks

/-- The node comes from there. -/
def Making.Head.Is (input : Input) (n : Node) : Making.Head → Prop
  | .read first ss => (∃ i j, Derives input (.node first n) i j) ∨
      ∃ start head i j, Derives input (.suffix ss start head n) i j
  | .made kind => n.kind = kind

/-- A node that was made in a way. -/
inductive Making.Makes (input : Input) : Making → Node → Prop
  | whole {kind items ps i j} : Derives input (.parts items ps) i j →
      Makes input (.whole kind items) (.mk kind NodeId.detached (input.nodeSpan i j) ps)
  | around {inner kind items head ps i j start} : inner.Is input head →
      Derives input (.parts items ps) i j →
      Makes input (.around inner kind items)
        (.mk kind NodeId.detached (input.nodeSpan start j) (.child head :: ps))
  | joined {kind p n rest i j k} : rest ≠ [] → Derives input (.tail p rest) i j →
      Makes input (.joined kind)
        (.mk kind NodeId.detached (input.nodeSpan k j) [Parser.separatedPart n rest])

theorem Part.nodes_separatedPart (n : Node) (rest : List (Token × Node)) :
    (Parser.separatedPart n rest).nodes = n :: rest.map Prod.snd :=
  rfl

/-- The productions make nodes only in ways that are `ok`, of items that are `plain`. -/
structure Grammar.Makes (ok : Making → Bool) (plain : Item → Bool) : Prop where
  rules : ∀ r, (production r).makes ok plain = true
  initializer : initializer.makes ok plain = true

section Derivations

variable {input : Input} {ok : Making → Bool} {plain : Item → Bool} {P : Node → Prop}

/-- What a judgement says about its nodes, if `P` holds of all that is made. -/
def Judgement.Makes (input : Input) (ok : Making → Bool) (plain : Item → Bool)
    (P : Node → Prop) : Judgement → Prop
  | .node p n => p.makes ok plain = true → n.All P
  | .suffix ss _ head n => ∀ inner, Suffix.makesAll ok plain inner ss = true →
      inner.Is input head → head.All P → n.All P
  | .suffixes ss _ _ head n => ∀ first, Suffix.makesAll ok plain (.read first ss) ss = true →
      (Making.Head.read first ss).Is input head → head.All P → n.All P
  | .parts items ps =>
    Item.makesAll ok plain items = true → ∀ n ∈ ps.flatMap Part.nodes, n.All P
  | .item it ps => it.makes ok plain = true → ∀ n ∈ ps.flatMap Part.nodes, n.All P
  | .list p ns => p.makes ok plain = true → ∀ n ∈ ns, n.All P
  | .tail p rest => p.makes ok plain = true → ∀ a ∈ rest, a.2.All P

/-- If `P` holds of all nodes that are made in ways that the productions have, then it holds of all
nodes that are derived. -/
theorem Derives.makes (hgrammar : Grammar.Makes ok plain)
    (hP : ∀ making n, ok making = true → making.Makes input n → P n)
    {J : Judgement} {i j : Nat} (h : Derives input J i j) : J.Makes input ok plain P := by
  have haround : ∀ {inner kind items follow others head ps i j} (start : Nat),
      Suffix.makesAll ok plain inner (.mk kind items follow :: others) = true →
      inner.Is input head → head.All P → Derives input (.parts items ps) i j →
      Judgement.Makes input ok plain P (.parts items ps) →
      (Node.mk kind NodeId.detached (input.nodeSpan start j) (.child head :: ps)).All P := by
    intro inner kind items follow others head ps i j start hok hinner hhead hps ih
    simp only [Suffix.makesAll, Bool.and_eq_true] at hok
    refine Node.all_mk (hP _ _ hok.1.1.1 (.around hinner hps)) ?_
    rw [List.flatMap_cons, List.forall_mem_append]
    exact ⟨by simpa [Part.nodes] using hhead, ih hok.1.1.2⟩
  have htail : ∀ {n : Node} {rest : List (Token × Node)}, n.All P → (∀ a ∈ rest, a.2.All P) →
      ∀ m ∈ n :: rest.map Prod.snd, m.All P := by
    intro n rest hn hrest
    rw [List.forall_mem_cons, List.forall_mem_map]
    exact ⟨hn, hrest⟩
  induction h with
  | node hps ih =>
    intro hok
    simp only [Phrase.makes, Bool.and_eq_true] at hok
    exact Node.all_mk (hP _ _ hok.1 (.whole hps)) (ih hok.2)
  | rule _ ih => exact fun _ => ih (hgrammar.rules _)
  | initializer _ ih => exact fun _ => ih hgrammar.initializer
  | first _ ih | yes _ ih => exact fun hok => ih (Bool.and_eq_true_iff.mp hok).1
  | second _ ih | no _ ih | alone _ ih => exact fun hok => ih (Bool.and_eq_true_iff.mp hok).2
  | suffixed _ hhead _ ihhead ihsuffixes =>
    intro hok
    simp only [Phrase.makes, Bool.and_eq_true] at hok
    exact ihsuffixes _ hok.2 (.inl ⟨_, _, hhead⟩) (ihhead hok.1)
  | joined hne _ hrest ihn ihrest =>
    intro hok
    simp only [Phrase.makes, Bool.and_eq_true] at hok
    refine Node.all_mk (hP _ _ hok.1 (.joined hne hrest)) ?_
    simpa [Part.nodes_separatedPart] using htail (ihn hok.2) (ihrest hok.2)
  | suffix hps ih => exact fun inner hok hinner hhead => haround _ hok hinner hhead hps ih
  | @follow _ _ _ _ start _ _ _ _ _ _ hps _ ihps ihn =>
    intro inner hok hinner hhead
    have hnode := haround start hok hinner hhead hps ihps
    simp only [Suffix.makesAll, Bool.and_eq_true] at hok
    exact ihn _ hok.1.2 rfl hnode
  | @other suffix _ _ _ _ _ _ _ ih =>
    intro inner hok hinner hhead
    cases suffix
    simp only [Suffix.makesAll, Bool.and_eq_true] at hok
    exact ih inner hok.2 hinner hhead
  | stop => exact fun _ _ _ hhead => hhead
  | more hmid _ ihmid ihn =>
    exact fun first hok hinner hhead =>
      ihn first hok (.inr ⟨_, _, _, _, hmid⟩) (ihmid _ hok hinner hhead)
  | nil | forbid | token _ | presentToken _ | absent | none _ => simp [Judgement.Makes, Part.nodes]
  | cons _ _ ihps ihqs =>
    intro hok
    simp only [Item.makesAll, Bool.and_eq_true] at hok
    rw [List.flatMap_append, List.forall_mem_append]
    exact ⟨ihps hok.1, ihqs hok.2⟩
  | child _ ih | present _ ih | optional _ ih | single _ ih | list _ _ ih =>
    intro hok
    simpa [Part.nodes] using ih hok
  | branch _ _ ih =>
    intro hok
    simp only [Item.makes, Bool.and_eq_true] at hok
    simpa [Part.nodes] using ih hok.2
  | separated _ _ ihn ihrest =>
    intro hok
    simpa [Part.nodes_separatedPart] using htail (ihn hok) (ihrest hok)
  | trailing _ _ _ ihn ihrest =>
    intro hok
    simpa [Part.nodes] using htail (ihn hok) (ihrest hok)
  | empty =>
    intro hok
    simp only [Item.makes, Bool.and_eq_true, List.isEmpty_iff] at hok
    simp [hok.2]
  | itemsYes _ ih => exact fun hok => ih (Bool.and_eq_true_iff.mp hok).1
  | itemsNo _ ih => exact fun hok => ih (Bool.and_eq_true_iff.mp hok).2
  | listNil | tailNil => simp [Judgement.Makes]
  | listCons _ _ ihn ih | tailCons _ _ _ ihn ih =>
    intro hok
    exact List.forall_mem_cons.mpr ⟨ihn hok, ih hok⟩

/-- What holds of all nodes that are made holds of all nodes of a tree that was read, if it holds of
the root. -/
theorem readTree_makes {start : Start} {source : Option String} {root : Node}
    (hgrammar : Grammar.Makes ok plain) (hstart : start.phrase.makes ok plain = true)
    (hP : ∀ making n, ok making = true → making.Makes input n → P n)
    (hroot : ∀ id span parts, P (.mk .program id span parts))
    (h : readTree start input source = .ok root) : root.All P := by
  obtain ⟨ns, j, rfl, hns, -⟩ := readTree_sound h
  refine Node.all_mk (hroot _ _ _) ?_
  simpa [Part.nodes] using hns.makes hgrammar hP hstart

end Derivations

end ShaderSource
