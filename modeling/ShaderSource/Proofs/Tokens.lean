import ShaderSource.Proofs.Relabel

/-!
# The tokens of a tree

A tree is its shape and its tokens. The shape is what is left when spans are dropped and every token
is taken to be the same; the tokens are what is written when the tree is written, one after the
other. Two trees of the same shape with the same tokens are the same up to their spans. So to know
a tree it is enough to know its shape, which a reading yields for all sources that look alike to it,
and its tokens, which are the lexemes of its source.

## Main results

* `Node.source_eq_join`: the text of a tree is that of its tokens.
* `Node.bare_eq_of_shape`: trees of the same shape with the same tokens are the same up to spans.
* `Node.tokens_relabel`: relabelling exchanges the tokens of leaves.
-/

namespace ShaderSource

open Node hiding id
open List ShaderSource.Part

variable {p : Part} {ns ms : List Node} {n : Node} {ts us : List Token}

/-! ### Tokens -/

/-- What stands after a node of a separated list, given the separators from its index on and
whether another node follows. -/
def separatorTokens (more : Bool) : List Token → List Token
  | t :: _ => [t]
  | [] => if more then [⟨",", ""⟩] else []

mutual

/-- The tokens of a node, as they are written. A text that belongs to no token counts as the trivia
of an empty one. -/
def Node.tokens : Node → List Token
  | .mk _ _ _ parts => Part.tokensAll parts

/-- The tokens of a list of parts. -/
def Part.tokensAll : List Part → List Token
  | [] => []
  | p :: ps => p.tokens ++ Part.tokensAll ps

/-- The tokens of a part. -/
def Part.tokens : Part → List Token
  | .text s => [⟨"", s⟩]
  | .token t => [t]
  | .optToken t => t.toList
  | .child n => n.tokens
  | .optChild none => []
  | .optChild (some n) => n.tokens
  | .list ns => Node.tokensAll ns
  | .separated ns separators => Node.separatedTokens ns separators
  | .branch _ none => []
  | .branch none (some n) => ⟨"else", " "⟩ :: n.tokens
  | .branch (some t) (some n) => t :: n.tokens

/-- The tokens of nodes that follow each other. -/
def Node.tokensAll : List Node → List Token
  | [] => []
  | n :: ns => n.tokens ++ Node.tokensAll ns

/-- The tokens of nodes with separators between them. -/
def Node.separatedTokens : List Node → List Token → List Token
  | [], _ => []
  | n :: ns, separators =>
    n.tokens ++ separatorTokens (!ns.isEmpty) separators ++
      Node.separatedTokens ns separators.tail

end

section Join

-- The equations of the functions that go through a tree, for the proofs in this section.
attribute [local simp] Node.tokens Part.tokensAll Part.tokens Node.tokensAll Node.separatedTokens
  separatorTokens Part.source Part.sources Node.sources Node.separatedSource separatorSource
  Token.source Token.optSource String.join_cons Part.nodes

theorem Part.tokensAll_eq (ps : List Part) : Part.tokensAll ps = ps.flatMap Part.tokens := by
  induction ps with
  | nil => simp
  | cons p ps ih => simp [ih]

theorem Node.tokensAll_eq (ns : List Node) : Node.tokensAll ns = ns.flatMap Node.tokens := by
  induction ns with
  | nil => simp
  | cons n ns ih => simp [ih]

theorem Node.tokens_mk (k : Kind) (i : NodeId) (s : Option Span) (ps : List Part) :
    (Node.mk k i s ps).tokens = ps.flatMap Part.tokens := by
  rw [tokens, Part.tokensAll_eq]

/-! ### The text of the tokens -/

theorem separatorSource_eq_join (more : Bool) (ts : List Token) :
    separatorSource more ts = String.join ((separatorTokens more ts).map Token.source) := by
  cases ts with
  | nil => cases more <;> simp
  | cons t ts => simp

section Nodes

variable {ns : List Node}
  (h : ∀ n ∈ ns, n.source = String.join (n.tokens.map Token.source))

include h

theorem Node.sources_eq_join :
    Node.sources ns = String.join ((Node.tokensAll ns).map Token.source) := by
  induction ns with
  | nil => simp
  | cons n ns ih =>
    rw [forall_mem_cons] at h
    rw [sources, tokensAll, h.1, ih h.2, map_append, String.join_append]

theorem Node.separatedSource_eq_join (ts : List Token) :
    Node.separatedSource ns ts = String.join ((Node.separatedTokens ns ts).map Token.source) := by
  induction ns generalizing ts with
  | nil => simp
  | cons n ns ih =>
    rw [forall_mem_cons] at h
    rw [separatedSource, separatedTokens, h.1, ih h.2, separatorSource_eq_join,
      map_append, map_append, String.join_append, String.join_append]

end Nodes

theorem Part.source_eq_join
    (h : ∀ n ∈ p.nodes, n.source = String.join (n.tokens.map Token.source)) :
    p.source = String.join (p.tokens.map Token.source) := by
  cases p with
  | text s => simp
  | token t => simp
  | optToken t => cases t <;> simp
  | child n => exact h n (by simp)
  | optChild n =>
    cases n with
    | none => rfl
    | some n => exact h n (by simp)
  | list ns => exact sources_eq_join h
  | separated ns ts => exact separatedSource_eq_join h ts
  | branch t n =>
    cases n with
    | none => rfl
    | some n =>
      have hn := h n (by simp)
      cases t <;> simp [hn]

/-- The text of a tree is that of its tokens. -/
theorem Node.source_eq_join (n : Node) : n.source = String.join (n.tokens.map Token.source) := by
  induction n using induction with
  | h n ih =>
    obtain ⟨k, i, s, ps⟩ := n
    rw [children_mk] at ih
    rw [source, tokens]
    induction ps with
    | nil => simp
    | cons p ps ihps =>
      rw [flatMap_cons, forall_mem_append] at ih
      rw [Part.sources, Part.tokensAll, Part.source_eq_join ih.1, ihps ih.2,
        map_append, String.join_append]

end Join

/-! ### The tokens of trees that correspond -/

section Alike

variable {S : Token → Token → Prop}

theorem Node.tokensAll_alike
    (h : List.Forall₂ (fun n m => List.Forall₂ S n.tokens m.tokens) ns ms) :
    List.Forall₂ S (Node.tokensAll ns) (Node.tokensAll ms) := by
  induction h with
  | nil => exact .nil
  | cons hn _ ih =>
    rw [tokensAll, tokensAll]
    exact rel_append hn ih

variable (hS : ∀ t, S t t)

include hS

theorem Node.separatedTokens_alike
    (h : List.Forall₂ (fun n m => List.Forall₂ S n.tokens m.tokens) ns ms) (ts : List Token) :
    List.Forall₂ S (Node.separatedTokens ns ts) (Node.separatedTokens ms ts) := by
  induction h generalizing ts with
  | nil => exact .nil
  | @cons n m ns ms hn hns ih =>
    have hempty : ms.isEmpty = ns.isEmpty := by
      cases hns <;> rfl
    rw [separatedTokens, separatedTokens, hempty]
    exact rel_append (rel_append hn (forall₂_same.mpr fun t _ => hS t)) (ih _)

/-- Parts that are alike up to nodes of corresponding tokens have corresponding tokens. -/
theorem Part.Alike.tokens {q : Part}
    (h : Part.Alike (fun n m => List.Forall₂ S n.tokens m.tokens) p q) :
    List.Forall₂ S p.tokens q.tokens := by
  have hsame : ∀ ts : List Token, List.Forall₂ S ts ts :=
    fun ts => forall₂_same.mpr fun t _ => hS t
  cases h with
  | text | token | optToken => exact hsame _
  | noChild | noBranch => exact .nil
  | child h | optChild h => exact h
  | list h => exact tokensAll_alike h
  | separated h => exact separatedTokens_alike hS h _
  | @branch t n m h =>
    cases t with
    | none => exact .cons (hS _) h
    | some t => exact .cons (hS t) h

theorem Part.tokensAll_alike {ps qs : List Part}
    (h : List.Forall₂ (Part.Alike fun n m => List.Forall₂ S n.tokens m.tokens) ps qs) :
    List.Forall₂ S (Part.tokensAll ps) (Part.tokensAll qs) := by
  induction h with
  | nil => exact .nil
  | cons hp _ ih =>
    rw [tokensAll, tokensAll]
    exact rel_append (hp.tokens hS) ih

end Alike

/-- Numbering keeps the tokens. -/
theorem Node.tokens_number (n : Node) (last : NodeId) : (n.number last).1.tokens = n.tokens := by
  rw [eq_comm, ← forall₂_eq_eq_eq]
  induction n using induction generalizing last with
  | h n ih =>
    obtain ⟨k, i, s, ps⟩ := n
    rw [children_mk] at ih
    exact Part.tokensAll_alike (fun _ => rfl)
      (number_alike (fun n hn last => ih n hn last) (last + 1))

theorem Node.tokens_exchangeCallees (callees : Registry NodeId NodeId) (n : Node) :
    (n.exchangeCallees callees).tokens = n.tokens := by
  rw [eq_comm, ← forall₂_eq_eq_eq]
  induction n using induction with
  | h n ih =>
    rcases n.exchangeCallees_cases callees with h | ⟨id, span, callee, parts, fresh, rfl, -, h⟩
    · obtain ⟨k, i, s, ps⟩ := n
      rw [children_mk] at ih
      rw [h]
      exact Part.tokensAll_alike (fun _ => rfl) (Part.mapNodes_alike_all ih)
    · rw [children_mk, flatMap_cons, forall_mem_append] at ih
      have hparts := Part.tokensAll_alike (fun _ => rfl) (Part.mapNodes_alike_all ih.2)
      rw [h, tokens, tokens, Part.tokensAll, Part.tokensAll]
      exact rel_append (by simp [Part.tokens, PlainCallee.node, tokens, Part.tokensAll,
        tokensAll]) hparts

/-- Relabelling exchanges the tokens of leaves: if the token of each leaf with a new name
corresponds to the new one, so do all tokens. -/
theorem Node.tokens_relabel {S : Token → Token → Prop} (hS : ∀ t, S t t)
    {names : Registry NodeId String}
    (h : ∀ kind id span t, kind.IsName → Node.leaf kind id span t ∈ n.preorder →
      ∀ name, names.get? id = some name → S t ⟨name, t.trivia⟩) :
    List.Forall₂ S n.tokens (n.relabel names).tokens := by
  induction n using induction with
  | h n ih =>
    have hmap : List.Forall₂ S n.tokens (n.mapChildren (relabel names)).tokens := by
      obtain ⟨k, i, s, ps⟩ := n
      refine Part.tokensAll_alike hS (Part.mapNodes_alike_all fun c hc => ?_)
      rw [← children_mk k i s ps] at hc
      exact ih c hc fun kind id span t hkind hmem =>
        h kind id span t hkind (mem_preorder_of_mem_child hc hmem)
    cases hget : names.get? n.id with
    | none =>
      rw [relabel_of_none names hget]
      exact hmap
    | some name =>
      rw [relabel_of_some names hget, withName_mapChildren]
      rcases n.withName_cases name with ⟨kind, id, span, t, hkind, rfl, heq⟩ | ⟨-, heq⟩
      · rw [heq, mapChildren_leaf]
        exact .cons (h kind id span t hkind (mem_preorder_self _) name hget) .nil
      · rw [heq]
        exact hmap

/-! ### The shape of a tree -/

mutual

/-- The tree without its spans and with other tokens. -/
def Node.retoken (f : Token → Token) : Node → Node
  | .mk kind id _ parts => .mk kind id none (Part.retokenAll f parts)

/-- Parts without spans and with other tokens. -/
def Part.retokenAll (f : Token → Token) : List Part → List Part
  | [] => []
  | p :: ps => p.retoken f :: Part.retokenAll f ps

/-- The part without spans and with other tokens. A word that is not written stays. -/
def Part.retoken (f : Token → Token) : Part → Part
  | .text s => .text s
  | .token t => .token (f t)
  | .optToken t => .optToken (t.map f)
  | .child n => .child (n.retoken f)
  | .optChild none => .optChild none
  | .optChild (some n) => .optChild (some (n.retoken f))
  | .list ns => .list (Node.retokenAll f ns)
  | .separated ns separators => .separated (Node.retokenAll f ns) (separators.map f)
  | .branch word none => .branch word none
  | .branch word (some n) => .branch (word.map f) (some (n.retoken f))

/-- Nodes without spans and with other tokens. -/
def Node.retokenAll (f : Token → Token) : List Node → List Node
  | [] => []
  | n :: ns => n.retoken f :: Node.retokenAll f ns

end

/-- What is left of a tree when its spans are dropped. -/
abbrev Node.bare (n : Node) : Node :=
  n.retoken fun t => t

/-- What is left of a tree when its spans and the tokens in it are dropped. -/
abbrev Node.shape (n : Node) : Node :=
  n.retoken fun _ => default

/-- What is left of a part when the spans and the tokens in it are dropped. -/
abbrev Part.erased (p : Part) : Part :=
  p.retoken fun _ => default

section Retoken

variable (f : Token → Token)

section All

attribute [local simp] Node.retoken Part.retokenAll Part.retoken Node.retokenAll

theorem Node.retokenAll_eq (ns : List Node) :
    Node.retokenAll f ns = ns.map (Node.retoken f) := by
  induction ns with
  | nil => simp
  | cons n ns ih => simp [ih]

theorem Part.retokenAll_eq (ps : List Part) :
    Part.retokenAll f ps = ps.map (Part.retoken f) := by
  induction ps with
  | nil => simp
  | cons p ps ih => simp [ih]

end All

@[simp] theorem Part.retoken_text (s : String) : (Part.text s).retoken f = .text s := by
  rw [retoken]

@[simp] theorem Part.retoken_token (t : Token) : (Part.token t).retoken f = .token (f t) := by
  rw [retoken]

@[simp] theorem Part.retoken_optToken (t : Option Token) :
    (Part.optToken t).retoken f = .optToken (t.map f) := by
  rw [retoken]

@[simp] theorem Part.retoken_child (n : Node) :
    (Part.child n).retoken f = .child (n.retoken f) := by
  rw [retoken]

@[simp] theorem Part.retoken_optChild (n : Option Node) :
    (Part.optChild n).retoken f = .optChild (n.map (Node.retoken f)) := by
  cases n <;> rfl

@[simp] theorem Part.retoken_branch (t : Option Token) (n : Option Node) :
    (Part.branch t n).retoken f =
      .branch (if n.isSome then t.map f else t) (n.map (Node.retoken f)) := by
  cases n <;> rfl

@[simp] theorem Part.retoken_list (ns : List Node) :
    (Part.list ns).retoken f = .list (ns.map (Node.retoken f)) := by
  rw [retoken, Node.retokenAll_eq]

@[simp] theorem Part.retoken_separated (ns : List Node) (ts : List Token) :
    (Part.separated ns ts).retoken f = .separated (ns.map (Node.retoken f)) (ts.map f) := by
  rw [retoken, Node.retokenAll_eq]

theorem Node.retoken_mk (k : Kind) (i : NodeId) (s : Option Span) (ps : List Part) :
    (Node.mk k i s ps).retoken f = .mk k i none (ps.map (Part.retoken f)) := by
  rw [retoken, Part.retokenAll_eq]

@[simp] theorem Node.kind_retoken (n : Node) : (n.retoken f).kind = n.kind := by
  cases n
  rfl

@[simp] theorem Node.id_retoken (n : Node) : (n.retoken f).id = n.id := by
  cases n
  rfl

theorem Node.numbers_retoken
    (h : ∀ n ∈ ns, ∀ last,
      (n.retoken f).number last = ((n.number last).1.retoken f, (n.number last).2))
    (last : NodeId) :
    Node.numbers last (Node.retokenAll f ns) =
      (Node.retokenAll f (Node.numbers last ns).1, (Node.numbers last ns).2) := by
  induction ns generalizing last with
  | nil => rfl
  | cons n ns ih =>
    rw [forall_mem_cons] at h
    simp only [retokenAll, numbers, h.1, ih h.2]

theorem Part.number_retoken
    (h : ∀ n ∈ p.nodes, ∀ last,
      (n.retoken f).number last = ((n.number last).1.retoken f, (n.number last).2))
    (last : NodeId) :
    (p.retoken f).number last = ((p.number last).1.retoken f, (p.number last).2) := by
  cases p with
  | text | token | optToken => rfl
  | child n =>
    have hn := h n (by simp [nodes]) last
    simp only [retoken, number, hn]
  | optChild n | branch _ n =>
    cases n with
    | none => rfl
    | some n =>
      have hn := h n (by simp [nodes]) last
      simp only [retoken, number, hn]
  | list ns | separated ns _ =>
    rw [nodes] at h
    simp only [retoken, number, numbers_retoken f h last]

/-- Numbering does not look at tokens. -/
theorem Node.number_retoken (n : Node) (last : NodeId) :
    (n.retoken f).number last = ((n.number last).1.retoken f, (n.number last).2) := by
  induction n using induction generalizing last with
  | h n ih =>
    obtain ⟨k, i, s, ps⟩ := n
    rw [children_mk] at ih
    have hparts : ∀ last, Part.numbers last (Part.retokenAll f ps) =
        (Part.retokenAll f (Part.numbers last ps).1, (Part.numbers last ps).2) := by
      induction ps with
      | nil => intro last; rfl
      | cons p ps ihps =>
        intro last
        rw [flatMap_cons, forall_mem_append] at ih
        simp only [Part.retokenAll, Part.numbers, Part.number_retoken f ih.1, ihps ih.2]
    simp only [retoken, number, hparts]

end Retoken

/-- Trees of the same shape are numbered alike. -/
theorem Node.number_shape {m : Node} (h : n.shape = m.shape) (last : NodeId) :
    (n.number last).1.shape = (m.number last).1.shape ∧ (n.number last).2 = (m.number last).2 := by
  have hn := number_retoken (fun _ => default) n last
  rw [show n.retoken (fun _ => default) = m.retoken fun _ => default from h,
    number_retoken] at hn
  exact ⟨(congrArg Prod.fst hn).symm, (congrArg Prod.snd hn).symm⟩

/-- Relabelling does not change the shape. -/
theorem Node.shape_relabel (names : Registry NodeId String) (n : Node) :
    (n.relabel names).shape = n.shape := by
  induction n using induction with
  | h n ih =>
    have hmap : (n.mapChildren (relabel names)).shape = n.shape := by
      obtain ⟨k, i, s, ps⟩ := n
      rw [children_mk] at ih
      rw [mapChildren, shape, shape, retoken_mk, retoken_mk,
        map_map]
      congr 1
      refine map_congr_left fun p hp => ?_
      have hnodes : ∀ c ∈ p.nodes, (c.relabel names).shape = c.shape := fun c hc =>
        ih c (mem_flatMap.mpr ⟨p, hp, hc⟩)
      cases p with
      | text | token | optToken => rfl
      | child c => simp [mapNodes, hnodes c (by simp [nodes])]
      | optChild c | branch _ c =>
        cases c with
        | none => rfl
        | some c => simp [mapNodes, hnodes c (by simp [nodes])]
      | list cs | separated cs _ =>
        simpa [mapNodes, retoken, retokenAll_eq, nodes] using hnodes
    cases hget : names.get? n.id with
    | none => rw [relabel_of_none names hget, hmap]
    | some name =>
      rw [relabel_of_some names hget]
      rcases (n.mapChildren (relabel names)).withName_cases name with
        ⟨kind, id, span, t, -, hleaf, heq⟩ | ⟨-, heq⟩
      · rw [heq, ← hmap, hleaf]
        rfl
      · rw [heq, hmap]

/-! ### Shape and tokens -/

/-- The shape of the node and what is written from it on determine the node, up to spans, and what
is written behind it. Stated so, it passes from nodes to lists of them without a word about how
many tokens a node has. -/
def Node.Determined (n : Node) : Prop :=
  ∀ (m : Node) (ts us : List Token),
    n.shape = m.shape → n.tokens ++ ts = m.tokens ++ us → n.bare = m.bare ∧ ts = us

theorem Node.tokensAll_determined (h : ∀ n ∈ ns, n.Determined)
    (hshape : ns.map Node.shape = ms.map Node.shape)
    (htokens : Node.tokensAll ns ++ ts = Node.tokensAll ms ++ us) :
    ns.map Node.bare = ms.map Node.bare ∧ ts = us := by
  induction ns generalizing ms with
  | nil =>
    obtain rfl : ms = [] := by simpa using hshape.symm
    exact ⟨rfl, htokens⟩
  | cons n ns ih =>
    cases ms with
    | nil => cases hshape
    | cons m ms =>
      obtain ⟨hn, hns⟩ := cons.inj hshape
      rw [forall_mem_cons] at h
      rw [tokensAll, tokensAll, append_assoc, append_assoc] at htokens
      obtain ⟨hbare, hrest⟩ := h.1 m _ _ hn htokens
      obtain ⟨hbares, hts⟩ := ih h.2 hns hrest
      exact ⟨by rw [map_cons, map_cons, hbare, hbares], hts⟩

theorem Node.separatedTokens_determined (h : ∀ n ∈ ns, n.Determined) {ss rs : List Token}
    (hstep : ss.length ≤ ns.length) (hshape : ns.map Node.shape = ms.map Node.shape)
    (hlength : ss.length = rs.length)
    (htokens : Node.separatedTokens ns ss ++ ts = Node.separatedTokens ms rs ++ us) :
    ns.map Node.bare = ms.map Node.bare ∧ ss = rs ∧ ts = us := by
  induction ns generalizing ms ss rs with
  | nil =>
    obtain rfl : ms = [] := by simpa using hshape.symm
    obtain rfl : ss = [] := by simpa using hstep
    obtain rfl : rs = [] := by simpa using hlength.symm
    exact ⟨rfl, rfl, htokens⟩
  | cons n ns ih =>
    cases ms with
    | nil => cases hshape
    | cons m ms =>
      obtain ⟨hn, hns⟩ := cons.inj hshape
      rw [forall_mem_cons] at h
      have hempty : ms.isEmpty = ns.isEmpty := by
        have hlen := congrArg List.length hns
        simp only [length_map] at hlen
        cases ns <;> cases ms <;> simp_all
      simp only [separatedTokens, append_assoc, hempty] at htokens
      obtain ⟨hbare, hrest⟩ := h.1 m _ _ hn htokens
      cases ss with
      | nil =>
        obtain rfl : rs = [] := by simpa using hlength.symm
        rw [append_cancel_left_eq] at hrest
        obtain ⟨hbares, -, hts⟩ := ih h.2 (Nat.zero_le _) hns rfl hrest
        exact ⟨by rw [map_cons, map_cons, hbare, hbares], rfl, hts⟩
      | cons s ss =>
        cases rs with
        | nil => cases hlength
        | cons r rs =>
          simp only [separatorTokens, cons_append, nil_append,
            tail_cons, cons.injEq] at hrest
          obtain ⟨rfl, hrest⟩ := hrest
          obtain ⟨hbares, rfl, hts⟩ := ih h.2 (Nat.le_of_succ_le_succ hstep) hns
            (Nat.succ.inj hlength) hrest
          exact ⟨by rw [map_cons, map_cons, hbare, hbares], rfl, hts⟩

/-- The tokens of a part determine it, given its shape. -/
theorem Part.determined {q : Part} (h : ∀ n ∈ p.nodes, n.Determined) (hstep : p.inStep = true)
    (hshape : p.erased = q.erased) (htokens : p.tokens ++ ts = q.tokens ++ us) :
    (p.retoken fun t => t) = (q.retoken fun t => t) ∧ ts = us := by
  cases p <;> cases q <;>
    simp only [retoken_text, retoken_token, retoken_optToken, retoken_child,
      retoken_optChild, retoken_branch, retoken_list, retoken_separated,
      text.injEq, optToken.injEq, child.injEq, optChild.injEq,
      list.injEq, separated.injEq, branch.injEq, reduceCtorEq] at hshape
  case text.text s s' =>
    obtain rfl := hshape
    exact ⟨rfl, append_cancel_left htokens⟩
  case token.token t t' =>
    obtain ⟨rfl, hts⟩ := cons.inj htokens
    exact ⟨rfl, hts⟩
  case optToken.optToken t t' =>
    cases t <;> cases t'
    case none.none => exact ⟨rfl, htokens⟩
    case some.some t t' =>
      obtain ⟨rfl, hts⟩ := cons.inj htokens
      exact ⟨rfl, hts⟩
    all_goals cases hshape
  case child.child n m =>
    obtain ⟨hn, hts⟩ := h n (by simp [nodes]) m _ _ hshape htokens
    exact ⟨congrArg child hn, hts⟩
  case optChild.optChild n m =>
    cases n <;> cases m
    case none.none => exact ⟨rfl, htokens⟩
    case some.some n m =>
      obtain ⟨hn, hts⟩ := h n (by simp [nodes]) m _ _ (Option.some.inj hshape) htokens
      exact ⟨congrArg (fun n => optChild (some n)) hn, hts⟩
    all_goals cases hshape
  case list.list ns ms =>
    rw [nodes] at h
    obtain ⟨hns, hts⟩ := tokensAll_determined h hshape htokens
    exact ⟨by rw [retoken_list, retoken_list]; exact congrArg list hns, hts⟩
  case separated.separated ns ss ms rs =>
    simp only [inStep, Bool.and_eq_true, decide_eq_true_eq] at hstep
    rw [nodes] at h
    obtain ⟨hns, rfl, hts⟩ := separatedTokens_determined h hstep.1 hshape.1
      (by simpa using congrArg List.length hshape.2) htokens
    refine ⟨?_, hts⟩
    rw [retoken_separated, retoken_separated]
    exact congrArg (separated · _) hns
  case branch.branch t n t' m =>
    cases n <;> cases m
    case none.none =>
      obtain ⟨rfl, -⟩ := hshape
      exact ⟨rfl, htokens⟩
    case some.some n m =>
      obtain ⟨ht, hshape⟩ := hshape
      cases t <;> cases t'
      case none.none =>
        obtain ⟨hn, hts⟩ := h n (by simp [nodes]) m _ _ (Option.some.inj hshape)
          (cons.inj htokens).2
        exact ⟨congrArg (fun n => branch none (some n)) hn, hts⟩
      case some.some t t' =>
        obtain ⟨rfl, hrest⟩ := cons.inj htokens
        obtain ⟨hn, hts⟩ := h n (by simp [nodes]) m _ _ (Option.some.inj hshape) hrest
        exact ⟨congrArg (fun n => branch (some t) (some n)) hn, hts⟩
      all_goals cases ht
    all_goals cases hshape.2

/-- Every tree is determined by its shape and its tokens. -/
theorem Node.determined (hstep : n.InStep) : n.Determined := by
  induction n using induction with
  | h n ih =>
    have hchildren : ∀ m ∈ n.children, m.Determined := fun m hm => ih m hm (hstep.child hm)
    have hparts := hstep n n.mem_preorder_self
    obtain ⟨k, i, s, ps⟩ := n
    rw [children_mk] at hchildren
    clear ih hstep
    rintro ⟨k', i', s', qs⟩ ts us hshape htokens
    rw [shape, shape, retoken_mk, retoken_mk, mk.injEq] at hshape
    obtain ⟨rfl, rfl, -, hshape⟩ := hshape
    rw [tokens, tokens] at htokens
    suffices h : ps.map (Part.retoken fun t => t) = qs.map (Part.retoken fun t => t) ∧ ts = us by
      rw [bare, bare, retoken_mk, retoken_mk, h.1]
      exact ⟨rfl, h.2⟩
    induction ps generalizing qs with
    | nil =>
      obtain rfl : qs = [] := by simpa using hshape.symm
      exact ⟨rfl, htokens⟩
    | cons p ps ihps =>
      cases qs with
      | nil => cases hshape
      | cons q qs =>
        obtain ⟨hp, hps⟩ := cons.inj hshape
        rw [flatMap_cons, forall_mem_append] at hchildren
        rw [parts, forall_mem_cons] at hparts
        rw [Part.tokensAll, Part.tokensAll, append_assoc, append_assoc] at htokens
        obtain ⟨hbare, hrest⟩ := Part.determined hchildren.1 hparts.1 hp htokens
        obtain ⟨hbares, hts⟩ := ihps hchildren.2 hparts.2 qs hrest hps
        exact ⟨by rw [map_cons, map_cons, hbare, hbares], hts⟩

/-- Trees of the same shape with the same tokens are the same up to spans. -/
theorem Node.bare_eq_of_shape {m : Node} (hstep : n.InStep) (hshape : n.shape = m.shape)
    (htokens : n.tokens = m.tokens) : n.bare = m.bare := by
  have happend : n.tokens ++ [] = m.tokens ++ [] := by rw [htokens]
  exact (determined hstep m [] [] hshape happend).1

end ShaderSource
