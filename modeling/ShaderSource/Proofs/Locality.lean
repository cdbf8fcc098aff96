import ShaderSource.Proofs.ProgramRenaming
import ShaderSource.Proofs.Walking

/-!
# Replacing nodes in the text

Replacing nodes is local in the text: the text of the tree after a visit is the text before it, with
the text of each replaced node exchanged for that of the node that replaces it. Nodes that are
replaced below a replaced node do not show.

To say so, the text of a tree is cut into pieces. A piece is text that stays, or a node that is
exchanged for another. Cutting goes over the tree before the visit once, asks the visitor about each
node as a visit does, and goes by its answers alone: there are neither addresses nor edited trees in
it. Put together with the nodes that were there, the pieces are the text before the visit, and with
the others they are the text after it. Separators that follow no node are not written, so they need
not be in step.

## Main results

* `Node.walk_cuts`: the edits of a walk change the text as the pieces say.
* `Node.visit_pieces`: replacement is local in the text.
-/

namespace ShaderSource

open Node hiding id span
open Edits List

variable {σ : Type} {slot : Nat} {ns : List Node} {p : Part}

/-! ### Pieces -/

/-- A piece of the text of a tree that is visited. -/
inductive Piece where
  /-- Text that stays. -/
  | kept (text : String)
  /-- The text of a node that is exchanged for that of another. -/
  | exchanged (old new : Node)

namespace Piece

/-- The text that pieces spell, with one of each two nodes that are exchanged. -/
def spell (pick : Node → Node → Node) : List Piece → String
  | [] => ""
  | .kept text :: pieces => text ++ spell pick pieces
  | .exchanged old new :: pieces => (pick old new).source ++ spell pick pieces

/-- The text before the nodes are exchanged. -/
abbrev before : List Piece → String :=
  spell fun old _ => old

/-- The text after the nodes are exchanged. -/
abbrev after : List Piece → String :=
  spell fun _ new => new

theorem spell_append (pick : Node → Node → Node) (l l' : List Piece) :
    spell pick (l ++ l') = spell pick l ++ spell pick l' := by
  induction l with
  | nil => exact (String.empty_append).symm
  | cons piece l ih =>
    cases piece with
    | kept | exchanged => rw [cons_append, spell, spell, ih, String.append_assoc]

/-- The pieces are those of a text that becomes another one. -/
structure Turn (pieces : List Piece) (old new : String) : Prop where
  before : Piece.before pieces = old
  after : Piece.after pieces = new

theorem turn_kept (text : String) : Turn [.kept text] text text := by
  constructor <;> simp [spell]

theorem turn_exchanged (old new : Node) : Turn [.exchanged old new] old.source new.source := by
  constructor <;> simp [spell]

theorem Turn.append {l l' : List Piece} {old new old' new' : String} (h : Turn l old new)
    (h' : Turn l' old' new') : Turn (l ++ l') (old ++ old') (new ++ new') where
  before := (spell_append _ l l').trans (congrArg₂ _ h.before h'.before)
  after := (spell_append _ l l').trans (congrArg₂ _ h.after h'.after)

end Piece

/-! ### Cutting -/

/-- The text behind a node of a list, which has separators or not. -/
def textBehind (more : Bool) (separators : Option (List Token)) : String :=
  (separators.map (separatorSource more)).getD ""

/-- The text of a part before its nodes. -/
def Part.word : Part → String
  | .text s => s
  | .token t => t.source
  | .optToken t => Token.optSource t
  | .branch word (some _) => (word.map Token.source).getD "else "
  | _ => ""

/-- The separators of a part that has any. -/
def Part.separators? : Part → Option (List Token)
  | .separated _ ts => some ts
  | _ => none

section Cut

variable (v : Visitor σ)

mutual

/-- The pieces of a node. A node that the visitor replaces is one piece, whatever it replaces below
it. -/
def Node.cut (ancestors : List Node) (key : Option SlotKey) : Node → VisitM σ (List Piece)
  | .mk kind id span parts =>
    let node := Node.mk kind id span parts
    v.ask ⟨node, ancestors, key⟩ (fun e => [.exchanged node (e.result.getD node)])
      [.kept node.source] (Part.cutAll (node :: ancestors) 0 parts) fun pieces => pieces
termination_by structural n => n

/-- The pieces of parts; the next slot has the given index. -/
def Part.cutAll (ancestors : List Node) (slot : Nat) : List Part → VisitM σ (List Piece)
  | [] => pure []
  | p :: ps => do
    let first ← p.cut ancestors slot
    let rest ← Part.cutAll ancestors (if p.slot?.isSome then slot + 1 else slot) ps
    return .kept p.word :: first ++ rest
termination_by structural ps => ps

/-- The pieces of the nodes of a part, which has the given index among the slots. -/
def Part.cut (ancestors : List Node) (slot : Nat) : Part → VisitM σ (List Piece)
  | .child n => n.cut ancestors (some ⟨.required, slot, none⟩)
  | .optChild (some n) | .branch _ (some n) => n.cut ancestors (some ⟨.optional, slot, none⟩)
  | .list ns => Node.cutAll ancestors slot 0 none ns
  | .separated ns separators => Node.cutAll ancestors slot 0 (some separators) ns
  | _ => pure []
termination_by structural p => p

/-- The pieces of the nodes of a list, which begins at the given index and has separators or not. -/
def Node.cutAll (ancestors : List Node) (slot index : Nat) (separators : Option (List Token)) :
    List Node → VisitM σ (List Piece)
  | [] => pure []
  | n :: ns => do
    let first ← n.cut ancestors (some ⟨.list, slot, some index⟩)
    let rest ← Node.cutAll ancestors slot (index + 1) (separators.map List.tail) ns
    return first ++ .kept (textBehind (!ns.isEmpty) separators) :: rest
termination_by structural ns => ns

end

end Cut

/-! ### The text of lists -/

/-- The text of the nodes of a list, which has separators or not. -/
def Node.listSource (ns : List Node) : Option (List Token) → String
  | none => Node.sources ns
  | some ts => Node.separatedSource ns ts

theorem Node.listSource_nil (separators : Option (List Token)) :
    Node.listSource [] separators = "" := by
  cases separators <;> simp [listSource, sources, separatedSource]

theorem Node.listSource_cons (n : Node) (ns : List Node) (separators : Option (List Token)) :
    Node.listSource (n :: ns) separators =
      n.source ++ textBehind (!ns.isEmpty) separators ++
        Node.listSource ns (separators.map List.tail) := by
  cases separators <;> simp [listSource, sources, separatedSource, textBehind]

/-- Separators that follow no node are not written. -/
theorem Node.separatedSource_take (ns : List Node) (ts : List Token) :
    Node.separatedSource ns (ts.take ns.length) = Node.separatedSource ns ts := by
  induction ns generalizing ts with
  | nil => rw [separatedSource, separatedSource]
  | cons n ns ih =>
    have htail : (ts.take (n :: ns).length).tail = ts.tail.take ns.length := by
      cases ts <;> simp
    rw [separatedSource, separatedSource, htail, ih]
    cases ts <;> rfl

/-- A part that is put together from a node for each of its nodes has their text. -/
theorem Part.Assembled.source {q : Part} {ms : List Node} (h : p.Assembled (ms.map some) q) :
    q.source = p.word ++ Node.listSource ms p.separators? := by
  have hkept : (keptNodes 0 (ms.map some)).map Prod.snd = ms := by
    rw [keptNodes_nodes]
    simp [filterMap_map]
  generalize hos : ms.map some = os at h
  cases h with
  | text | token | optToken | noChild | noBranch =>
    obtain rfl := map_eq_nil_iff.mp hos
    simp [Part.source, Part.word, Node.listSource_nil]
  | child | optChild =>
    obtain ⟨m, rfl, rfl⟩ := map_eq_singleton_iff.mp hos
    simp [Part.source, Part.word, Part.separators?, Node.listSource, Node.sources]
  | @branch t =>
    obtain ⟨m, rfl, rfl⟩ := map_eq_singleton_iff.mp hos
    cases t <;> simp [Part.source, Part.word, Part.separators?, Node.listSource, Node.sources]
  | list =>
    rw [← hos, hkept, Part.source]
    exact (String.empty_append).symm
  | separated hlength hts =>
    rw [← hos, hkept, Part.source]
    refine Eq.trans ?_ (String.empty_append).symm
    rcases hts with ⟨rfl, -⟩ | rfl
    · rfl
    · rw [← hos, length_map] at hlength
      rw [← hos, keptNodes_indices, ← hlength, keptSeparators_range, Node.separatedSource_take]
      rfl

theorem Part.sources_patchAll_nil (slot : Nat) (ps : List Part) :
    Part.sources (Part.patchAll [] slot ps) = Part.sources ps := by
  induction ps generalizing slot with
  | nil => rw [Part.patchAll]
  | cons p ps ih =>
    have hpatch : p.Assembled _ (p.patch [] slot) := p.assembled_patch slot
    rw [outcomes_nil] at hpatch
    rw [Part.patchAll, Part.sources, Part.sources, ih, hpatch.source, p.assembled_self.source]

/-! ### Visitors that replace -/

/-- A hook only replaces nodes. -/
def Hook.Replaces (hook : Hook σ) : Prop :=
  ∀ path s d s', (hook path).run.run s = (.ok d, s') → ∀ e, d.edit = some e →
    ∃ n, path.replace n = .ok e

/-- A visitor only replaces nodes. -/
structure Visitor.Replaces (v : Visitor σ) : Prop where
  enter : v.enter.Replaces
  exit : v.exit.Replaces

theorem Visitor.Replaces.decides {v : Visitor σ} (h : v.Replaces) {path : Path} {e : Edit}
    (he : v.Decides path e) : path.key ≠ none ∧ ∃ new, e = .replace new := by
  obtain ⟨n, hn⟩ : ∃ n, path.replace n = .ok e := by
    obtain ⟨s, d, s', hrun | hrun, hedit⟩ := he
    · exact h.enter path s d s' hrun e hedit
    · exact h.exit path s d s' hrun e hedit
  rw [Path.replace] at hn
  split at hn
  · cases hn
  · rename_i hkey
    obtain rfl := Except.ok.inj hn
    exact ⟨by simp [hkey], n, rfl⟩

/-! ### Walking and cutting -/

section Walk

variable {v : Visitor σ}

/-- Cutting a node goes as a walk over it does: the edits that the walk gathers leave a node in its
place, whose text is what the pieces say. A root is not replaced. -/
def Node.Cuts (v : Visitor σ) (n : Node) : Prop :=
  ∀ ancestors key,
    VisitM.Agree (fun _ => True) (n.walk v ancestors key) (n.cut v ancestors key) fun es pieces =>
      (∃ m, n.patched es = some m ∧ Piece.Turn pieces n.source m.source) ∧
        (key = none → es.here? = none)

/-- The edits leave a node in the place of each of the nodes of a list, which begins at the given
index, and the pieces say how its text changes. -/
def Node.AllCut (ns : List Node) (slot index : Nat) (separators : Option (List Token)) (es : Edits)
    (pieces : List Piece) : Prop :=
  ∃ ms : List Node, Node.outcomes es slot index ns = ms.map some ∧
    Piece.Turn pieces (Node.listSource ns separators) (Node.listSource ms separators)

theorem Node.walkAll_cuts (h : ∀ n ∈ ns, n.Cuts v) (ancestors : List Node) (slot index : Nat)
    (separators : Option (List Token)) :
    VisitM.Agree (fun _ => True) (Node.walkAll v ancestors slot index ns)
      (Node.cutAll v ancestors slot index separators ns) fun es pieces =>
        es.Start (fun step => step.slot = slot ∧ index ≤ step.index) ∧
          Node.AllCut ns slot index separators es pieces := by
  induction ns generalizing index separators with
  | nil =>
    rw [walkAll, cutAll]
    refine .pure ⟨start_nil _, [], rfl, ?_⟩
    rw [listSource_nil]
    exact ⟨rfl, rfl⟩
  | cons n ns ih =>
    rw [forall_mem_cons] at h
    rw [walkAll, cutAll]
    refine (h.1 ancestors _).bind fun first pieces hfirst =>
      (ih h.2 (index + 1) _).bind fun rest pieces' hrest => .pure ?_
    obtain ⟨⟨m, hm, hturn⟩, -⟩ := hfirst
    obtain ⟨hstart, ms, hms, hturn'⟩ := hrest
    obtain ⟨hall, houtcomes⟩ := outcomes_cons first hstart n ns
    refine ⟨hall, m :: ms, by rw [houtcomes, hm, hms, map_cons], ?_⟩
    have hlength := congrArg length hms
    rw [length_outcomes, length_map] at hlength
    have hmore : ms.isEmpty = ns.isEmpty := by
      rw [Bool.eq_iff_iff, isEmpty_iff_length_eq_zero, isEmpty_iff_length_eq_zero, hlength]
    rw [listSource_cons, listSource_cons, hmore]
    simpa using (hturn.append (Piece.turn_kept _)).append hturn'

/-- The first computation gathers edits in the slot of a part, and the second one cuts the part as
they change its text. -/
def Part.Cuts (p : Part) (slot : Nat) (m : VisitM σ Edits) (m' : VisitM σ (List Piece)) : Prop :=
  VisitM.Agree (fun _ => True) m m' fun es pieces =>
    es.Start (fun step => p.slot?.isSome = true ∧ step.slot = slot) ∧
      Node.AllCut p.nodes slot 0 p.separators? es pieces

theorem Part.walk_cuts (h : ∀ n ∈ p.nodes, n.Cuts v) (ancestors : List Node) (slot : Nat) :
    p.Cuts slot (p.walk v ancestors slot) (p.cut v ancestors slot) := by
  have hnone : p.nodes = [] → p.Cuts (σ := σ) slot (pure []) (pure []) := by
    intro hnodes
    refine .pure ⟨start_nil _, [], by rw [hnodes]; rfl, ?_⟩
    rw [hnodes, Node.listSource_nil]
    exact ⟨rfl, rfl⟩
  have hone : ∀ {n : Node} {key : Option SlotKey}, p.nodes = [n] → p.separators? = none →
      p.slot?.isSome = true →
      p.Cuts slot (do return (← n.walk v ancestors key).under ⟨slot, 0⟩)
        (n.cut v ancestors key) := by
    intro n key hnodes hseparators hslot
    rw [← bind_pure (n.cut v ancestors key)]
    refine (h n (by simp [hnodes]) ancestors key).bind
      fun es pieces ⟨⟨m, hm, hturn⟩, _⟩ => .pure ⟨?_, [m], ?_, ?_⟩
    · exact (start_under es _).mono fun step hstep => ⟨hslot, hstep ▸ rfl⟩
    · rw [hnodes, Node.outcomes, below_under, hm]
      rfl
    · simpa [hnodes, hseparators, Node.listSource, Node.sources] using hturn
  have hlist : p.slot?.isSome = true → p.Cuts slot (Node.walkAll v ancestors slot 0 p.nodes)
      (Node.cutAll v ancestors slot 0 p.separators? p.nodes) := by
    intro hslot
    refine (Node.walkAll_cuts h ancestors slot 0 _).mono fun es pieces hes => ?_
    exact ⟨hes.1.mono fun step hstep => ⟨hslot, hstep.1⟩, hes.2⟩
  cases p with
  | text | token | optToken =>
    simp only [Part.walk, Part.cut]
    exact hnone rfl
  | child n =>
    rw [Part.walk, Part.cut]
    exact hone rfl rfl rfl
  | optChild n | branch _ n =>
    cases n with
    | none =>
      simp only [Part.walk, Part.cut]
      exact hnone rfl
    | some n =>
      rw [Part.walk, Part.cut]
      exact hone rfl rfl rfl
  | list | separated =>
    rw [Part.walk, Part.cut]
    exact hlist rfl

theorem Part.walkAll_cuts {ps : List Part} (h : ∀ n ∈ ps.flatMap Part.nodes, n.Cuts v)
    (ancestors : List Node) (slot : Nat) :
    VisitM.Agree (fun _ => True) (Part.walkAll v ancestors slot ps)
      (Part.cutAll v ancestors slot ps) fun es pieces =>
        es.Start (fun step => slot ≤ step.slot) ∧
          Piece.Turn pieces (Part.sources ps) (Part.sources (Part.patchAll es slot ps)) := by
  induction ps generalizing slot with
  | nil =>
    rw [Part.walkAll, Part.cutAll]
    refine .pure ⟨start_nil _, ?_⟩
    rw [Part.patchAll, Part.sources]
    exact ⟨rfl, rfl⟩
  | cons p ps ih =>
    rw [flatMap_cons, forall_mem_append] at h
    rw [Part.walkAll, Part.cutAll]
    refine (Part.walk_cuts h.1 ancestors slot).bind fun first pieces hfirst =>
      (ih h.2 _).bind fun rest pieces' hrest => .pure ?_
    obtain ⟨hstart, ms, hms, hturn⟩ := hfirst
    obtain ⟨hall, hpatched⟩ := Part.patchAll_cons hstart hrest.1 ps
    have hassembled : p.Assembled _ (p.patch first slot) := p.assembled_patch slot
    rw [hms] at hassembled
    rw [hpatched, Part.sources, Part.sources, p.assembled_self.source, hassembled.source]
    exact ⟨hall, ((Piece.turn_kept _).append hturn).append hrest.2⟩

/-- The edits of a walk change the text as the pieces say. -/
theorem Node.walk_cuts (hv : v.Replaces) (n : Node) : n.Cuts v := by
  induction n using induction with
  | h n ih =>
    obtain ⟨kind, id, span, parts⟩ := n
    rw [children_mk] at ih
    intro ancestors key
    rw [cut]
    refine walk_asks (Part.walkAll_cuts ih _ 0) ?_ ?_ ?_
    · rw [Part.sources_patchAll_nil, source]
      exact Piece.turn_kept _
    · intro es pieces hhere hturn
      refine ⟨⟨_, by rw [patched, hhere], ?_⟩, fun _ => hhere⟩
      rw [source, source]
      cases es with
      | nil => rwa [Part.sources_patchAll_nil] at hturn
      | cons e es => exact hturn
    · intro es e hhere hdecides
      obtain ⟨hkey, new, rfl⟩ := hv.decides hdecides
      exact ⟨⟨new, by rw [patched, hhere], Piece.turn_exchanged _ new⟩,
        fun hnone => absurd hnone hkey⟩

end Walk

/-- **Replacement is local in the text**: for every tree and every visitor that only replaces nodes,
a visit ends as cutting the tree does, with the same error, or else the text after the visit is the
text before it with the text of each node that the visitor replaced exchanged for that of the node
it gave, but for those below replaced nodes. -/
theorem Node.visit_pieces {v : Visitor σ} (hv : v.Replaces) (root : Node) (s : σ) :
    (∃ e s', (root.cut v [] none).run.run s = (.error e, s') ∧
      (root.visit v s).result = .error e ∧ (root.visit v s).state = s') ∨
    ∃ pieces tree s', (root.cut v [] none).run.run s = (.ok pieces, s') ∧
      (root.visit v s).result = .ok tree ∧ (root.visit v s).state = s' ∧
      root.source = Piece.before pieces ∧ tree.source = Piece.after pieces := by
  rcases walk_cuts hv root [] none s trivial with ⟨e, s', hwalk, hcut⟩ |
    ⟨es, pieces, s', hwalk, hcut, ⟨⟨m, hm, hturn⟩, hhere⟩, -⟩
  · exact .inl ⟨e, s', hcut, by rw [visit, hwalk], by rw [visit, hwalk]⟩
  · right
    rw [patched_eq_patch (hhere rfl)] at hm
    obtain rfl := Option.some.inj hm
    obtain ⟨hresult, hstate⟩ := visit_of_walk hwalk
    exact ⟨pieces, _, s', hcut, hresult, hstate, hturn.before.symm, hturn.after.symm⟩

/-- Puts a node in the place of nodes of one kind when they are entered and of another kind when
they are left. -/
def Visitor.putting (new : Node) (entered left : Kind) : Visitor Unit where
  enter := hook entered
  exit := hook left
where
  hook (kind : Kind) : Hook Unit := fun path => pure
    { Decision.pass with
      edit := if path.node.kind = kind then (path.replace new).toOption else none }

theorem Visitor.putting_replaces (new : Node) (entered left : Kind) :
    (Visitor.putting new entered left).Replaces := by
  have hhook : ∀ kind, Hook.Replaces (Visitor.putting.hook new kind) := by
    intro kind path s d s' hrun e he
    cases hrun
    dsimp only at he
    split at he
    · exact ⟨new, eq_ok_of_toOption he⟩
    · cases he
  exact ⟨hhook entered, hhook left⟩

/-- A call is replaced, and so are the names in it and others. -/
theorem Node.visit_pieces_nested :
    let v := Visitor.putting (leaf .identifier 0 none ⟨"xy", ""⟩) .identifier .functionCall
    ∃ p pieces tree, Program.parse "int a = b + f(c, d) ;" Options.default = .ok p ∧ v.Replaces ∧
      (p.root.cut v [] none).run.run () = (.ok pieces, ()) ∧
      (p.root.visit v ()).result = .ok tree ∧ Piece.before pieces = "int a = b + f(c, d) ;" ∧
      Piece.after pieces = "int xy= xy+ xy;" ∧ tree.source = Piece.after pieces := by
  intro v
  have heval : ((Program.parse "int a = b + f(c, d) ;" Options.default).toOption.map fun p =>
      (p.root.source, (p.root.visit v ()).result.toOption.map source)) =
        some ("int a = b + f(c, d) ;", some "int xy= xy+ xy;") := by
    decide +kernel
  obtain ⟨p, hp, heval⟩ := Option.map_eq_some_iff.mp heval
  obtain ⟨hbefore, hafter⟩ := Prod.mk.inj heval
  obtain ⟨tree, htree, hsource⟩ := Option.map_eq_some_iff.mp hafter
  have hvisit := eq_ok_of_toOption htree
  have hv := Visitor.putting_replaces (leaf .identifier 0 none ⟨"xy", ""⟩) .identifier
    .functionCall
  rcases visit_pieces hv p.root () with ⟨e, s', -, herror, -⟩ |
    ⟨pieces, tree', s', hcut, hok, -, hroot, htree'⟩
  · cases hvisit.symm.trans herror
  · obtain rfl := Except.ok.inj (hvisit.symm.trans hok)
    exact ⟨p, pieces, tree, eq_ok_of_toOption hp, hv, hcut, hvisit,
      hroot.symm.trans hbefore, htree'.symm.trans hsource, htree'⟩

end ShaderSource
