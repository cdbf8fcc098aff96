import ShaderSource.Proofs.Transparency

/-!
# What reading comes to

The outcome of a plain run, once rules may nest deeply enough: what is matched and up to where, or
that nothing is. Unlike a derivation, which tells of matches only, an outcome also tells of
failures, and so of what an ordered choice comes to and where a repetition ends.

Each way to put phrases together has a lemma that gives its outcome from those of its parts. Depth
and expectations show up in the first few of these only.

## Main results

* `Phrase.ComesTo.rule`: what a rule comes to is what its production comes to.
* `Phrase.ComesTo.suffixed`: what a node with suffixes comes to, by the steps that these take.
* `readTree_of_comesTo`: what a source is read as, given what its phrase comes to, unless it
  nests too deeply.
-/

namespace ShaderSource

open Phrase Rule ShaderSource.Parser

variable {t : Terminal} {r : Node × Nat} {kind : Kind} {items : List Item} {ahead : List Terminal}
  {noted : List String} {o : Option (List Part × Nat)} {count k : Nat} {n : Node}
  {rest : List (Token × Node)} {ns : List Node}

/-- None of the marks stands at the place. -/
abbrev Input.Lacks (input : Input) (marks : List String) (i : Nat) : Prop :=
  (Terminal.punct marks).accepts (input.lexeme i) = false

namespace Parser

variable {α β : Type} {input : Input}

/-- Parsers, one for every depth, come to an outcome if every depth that is enough has it. -/
def ComesTo (p : Nat → Parser Unit α) (input : Input) (i : Nat) (o : Option (α × Nat)) : Prop :=
  ∃ enough, ∀ depth ≥ enough, ∀ f, ∃ g, p depth input i ⟨(), f⟩ = .ok (o, ⟨(), g⟩)

namespace ComesTo

variable {p q : Nat → Parser Unit α} {k : Nat → α → Parser Unit β} {i j : Nat} {a : α}

theorem bind (hp : ComesTo p input i (some (a, j))) {o : Option (β × Nat)}
    (hk : ComesTo (fun depth => k depth a) input j o) :
    ComesTo (fun depth => p depth >>= k depth) input i o := by
  obtain ⟨m, hm⟩ := hp
  obtain ⟨n, hn⟩ := hk
  refine ⟨max m n, fun depth hdepth f => ?_⟩
  obtain ⟨g, hg⟩ := hm depth (by omega) f
  obtain ⟨h, hh⟩ := hn depth (by omega) g
  exact ⟨h, by change (p depth).andThen (k depth) input i _ = _; simp only [andThen, hg, hh]⟩

theorem bind_none (hp : ComesTo p input i none) :
    ComesTo (fun depth => p depth >>= k depth) input i none := by
  obtain ⟨m, hm⟩ := hp
  refine ⟨m, fun depth hdepth f => ?_⟩
  obtain ⟨g, hg⟩ := hm depth hdepth f
  exact ⟨g, by change (p depth).andThen (k depth) input i _ = _; simp only [andThen, hg]⟩

theorem orElse_some {r : α × Nat} (hp : ComesTo p input i (some r)) :
    ComesTo (fun depth => (p depth).orElse (q depth)) input i (some r) := by
  obtain ⟨m, hm⟩ := hp
  refine ⟨m, fun depth hdepth f => ?_⟩
  obtain ⟨g, hg⟩ := hm depth hdepth f
  exact ⟨g, by simp only [orElse, hg]⟩

theorem orElse_none (hp : ComesTo p input i none) {o : Option (α × Nat)}
    (hq : ComesTo q input i o) :
    ComesTo (fun depth => (p depth).orElse (q depth)) input i o := by
  obtain ⟨m, hm⟩ := hp
  obtain ⟨n, hn⟩ := hq
  refine ⟨max m n, fun depth hdepth f => ?_⟩
  obtain ⟨g, hg⟩ := hm depth (by omega) f
  obtain ⟨h, hh⟩ := hn depth (by omega) g
  exact ⟨h, by simp only [orElse, hg, hh]⟩

theorem succeed (a : α) (i : Nat) : ComesTo (fun _ => Parser.succeed a) input i (some (a, i)) :=
  ⟨0, fun _ _ f => ⟨f, rfl⟩⟩

theorem pure (a : α) (i : Nat) :
    ComesTo (fun _ => (Pure.pure a : Parser Unit α)) input i (some (a, i)) :=
  succeed a i

theorem fail (i : Nat) : ComesTo (fun _ => (Parser.fail : Parser Unit α)) input i none :=
  ⟨0, fun _ _ f => ⟨f, rfl⟩⟩

theorem here (i : Nat) : ComesTo (fun _ => Parser.here) input i (some (i, i)) :=
  ⟨0, fun _ _ f => ⟨f, rfl⟩⟩

theorem bound (i : Nat) : ComesTo (fun _ => Parser.bound) input i (some (input.bound, i)) :=
  ⟨0, fun _ _ f => ⟨f, rfl⟩⟩

theorem note (expected : List String) (i : Nat) :
    ComesTo (fun _ => Parser.note expected) input i (some ((), i)) :=
  ⟨0, fun _ _ _ => ⟨_, rfl⟩⟩

theorem sees (ahead : List Terminal) (i : Nat) :
    ComesTo (fun _ => Parser.sees ahead) input i (some (looksAt input i ahead, i)) :=
  ⟨0, fun _ _ f => ⟨f, rfl⟩⟩

theorem node (kind : Kind) (first i : Nat) (ps : List Part) :
    ComesTo (fun _ => Parser.node kind first ps) input i
      (some (.mk kind NodeId.detached (input.nodeSpan first i) ps, i)) :=
  ⟨0, fun _ _ f => ⟨f, rfl⟩⟩

theorem token (h : t.accepts (input.lexeme i) = true) :
    ComesTo (fun _ => Parser.token t) input i (some ((input.lexeme i).token, i + 1)) :=
  ⟨0, fun _ _ f => ⟨f, by simp only [Parser.token, h, if_true]⟩⟩

theorem token_none (h : t.accepts (input.lexeme i) = false) :
    ComesTo (fun _ => Parser.token t) input i none :=
  ⟨0, fun _ _ _ => ⟨_, by simp only [Parser.token, h, Bool.false_eq_true, if_false]; rfl⟩⟩

theorem atEnd (h : (input.lexeme i).isEnd = true) :
    ComesTo (fun _ => Parser.atEnd) input i (some ((), i)) :=
  ⟨0, fun _ _ f => ⟨f, by simp only [Parser.atEnd, h, if_true]⟩⟩

end ComesTo

end Parser

/-! ### Phrases -/

/-- The outcome of reading a phrase. -/
def Phrase.ComesTo (p : Phrase) (input : Input) (i : Nat) (o : Option (Node × Nat)) : Prop :=
  Parser.ComesTo (fun depth => p.parser (readPlainly depth)) input i o

/-- The outcome of reading one of the suffixes around a node that begins at `start`. -/
def Suffix.ComesTo (ss : List Suffix) (input : Input) (start : Nat) (head : Node) (i : Nat)
    (o : Option (Node × Nat)) : Prop :=
  Parser.ComesTo (fun depth => Suffix.readAny (readPlainly depth)
    (initializerParser (readPlainly depth)) ss start head) input i o

/-- The outcome of reading items, whatever part comes before them. -/
def Item.ComesTo (items : List Item) (input : Input) (i : Nat) (o : Option (List Part × Nat)) :
    Prop :=
  ∀ before, Parser.ComesTo (fun depth => Item.readAll (readPlainly depth)
    (initializerParser (readPlainly depth)) before items) input i o

/-- The outcome of reading an item, whatever part comes before it. -/
def Item.Yields (item : Item) (input : Input) (i : Nat) (o : Option (List Part × Nat)) : Prop :=
  ∀ before, Parser.ComesTo (fun depth => Item.read (readPlainly depth)
    (initializerParser (readPlainly depth)) before item) input i o

variable {input : Input} {i j : Nat}

/-- A node follows at each of the places, one behind the other. -/
inductive Phrase.Chain (p : Phrase) (input : Input) : Nat → List Node → Nat → Prop
  | nil {i : Nat} : Chain p input i [] i
  | snoc {i j k : Nat} {ns : List Node} {n : Node} :
      Chain p input i ns j → p.ComesTo input j (some (n, k)) → Chain p input i (ns ++ [n]) k

/-- A comma and a node follow at each of the places, one behind the other. -/
inductive Phrase.Tail (p : Phrase) (input : Input) : Nat → List (Token × Node) → Nat → Prop
  | nil {i : Nat} : Tail p input i [] i
  | cons {i j k : Nat} {n : Node} {rest : List (Token × Node)} :
      (Terminal.punct [","]).accepts (input.lexeme i) = true →
      p.ComesTo input (i + 1) (some (n, j)) → Tail p input j rest k →
      Tail p input i (((input.lexeme i).token, n) :: rest) k

/-- The suffixes take a node at a place, by the given number of steps, to a node at a place. -/
inductive Suffix.Steps (ss : List Suffix) (input : Input) (start : Nat) :
    Nat → Node → Nat → Node → Nat → Prop
  | refl {n : Node} {i : Nat} : Steps ss input start 0 n i n i
  | step {count : Nat} {n m m' : Node} {i j k : Nat} :
      Steps ss input start count n i m j → Suffix.ComesTo ss input start m j (some (m', k)) →
      Steps ss input start (count + 1) n i m' k

namespace Phrase.ComesTo

open ShaderSource.Parser (ComesTo)

variable {p q : Phrase} {o : Option (Node × Nat)}

/-- What a rule comes to is what its production comes to. -/
theorem rule {r : Rule} (h : (Grammar.production r).ComesTo input i o) :
    (Phrase.rule r).ComesTo input i o := by
  obtain ⟨m, hm⟩ := h
  refine ⟨m + 1, fun depth hdepth f => ?_⟩
  obtain ⟨depth, rfl⟩ : ∃ d, depth = d + 1 := ⟨depth - 1, by omega⟩
  exact hm depth (by omega) f

theorem node {ps : List Part} (h : Item.ComesTo items input i (some (ps, j))) :
    (Phrase.node kind items).ComesTo input i
      (some (.mk kind NodeId.detached (input.nodeSpan i j) ps, j)) := by
  simp only [ComesTo, parser, read]
  exact (ComesTo.here i).bind ((h none).bind (.node kind i j ps))

theorem node_none (h : Item.ComesTo items input i none) :
    (Phrase.node kind items).ComesTo input i none := by
  simp only [ComesTo, parser, read]
  exact (ComesTo.here i).bind (h none).bind_none

theorem orElse_some (h : p.ComesTo input i (some r)) (q : Phrase) :
    (Phrase.orElse p q).ComesTo input i (some r) := by
  simp only [ComesTo, parser, read]
  exact Parser.ComesTo.orElse_some h

theorem orElse_none (hp : p.ComesTo input i none) (hq : q.ComesTo input i o) :
    (Phrase.orElse p q).ComesTo input i o := by
  simp only [ComesTo, parser, read]
  exact Parser.ComesTo.orElse_none hp hq

theorem choose (h : (if Parser.looksAt input i ahead then p else q).ComesTo input i o) :
    (Phrase.choose ahead noted p q).ComesTo input i o := by
  simp only [ComesTo, parser, read]
  refine (ComesTo.sees ahead i).bind ?_
  cases hlooks : looksAt input i ahead with
  | true =>
    rw [hlooks] at h
    exact h
  | false =>
    rw [hlooks] at h
    exact (ComesTo.note noted i).bind h

theorem refuse (expected : List String) (i : Nat) :
    (Phrase.refuse expected).ComesTo input i none := by
  simp only [ComesTo, parser, read]
  exact (ComesTo.note expected i).bind (.fail i)

end Phrase.ComesTo

/-! ### Suffixes -/

namespace Suffix

open ShaderSource.Parser (ComesTo)

variable {ss : List Suffix} {start : Nat} {head : Node}

theorem ComesTo.nil (start : Nat) (head : Node) (i : Nat) :
    Suffix.ComesTo [] input start head i none := by
  simp only [Suffix.ComesTo, Suffix.readAny]
  exact ComesTo.fail i

/-- The first suffix is read, and one of those that may follow it if it is there. -/
theorem ComesTo.first {follow others : List Suffix}
    {ps : List Part} {o : Option (Node × Nat)} (hitems : Item.ComesTo items input i (some (ps, j)))
    (hfollow : Suffix.ComesTo follow input start
      (.mk kind NodeId.detached (input.nodeSpan start j) (.child head :: ps)) j o) :
    Suffix.ComesTo (.mk kind items follow :: others) input start head i
      (some (o.getD
        (.mk kind NodeId.detached (input.nodeSpan start j) (.child head :: ps), j))) := by
  simp only [Suffix.ComesTo, Suffix.readAny]
  refine ComesTo.orElse_some ((hitems none).bind
    ((ComesTo.node kind start j (.child head :: ps)).bind ?_))
  cases o with
  | none => exact ComesTo.orElse_none hfollow (.succeed _ j)
  | some r => exact ComesTo.orElse_some hfollow

theorem ComesTo.other {follow others : List Suffix} {o : Option (Node × Nat)}
    (hitems : Item.ComesTo items input i none)
    (hothers : Suffix.ComesTo others input start head i o) :
    Suffix.ComesTo (.mk kind items follow :: others) input start head i o := by
  simp only [Suffix.ComesTo, Suffix.readAny]
  exact ComesTo.orElse_none (hitems none).bind_none hothers

/-- What is read after some steps is read from before them. -/
theorem Steps.extended_of {limit : Nat}
    (h : Steps ss input start count head i n j) (hlimit : count ≤ limit)
    (hrest : Parser.ComesTo (fun depth => extended (Suffix.readAny (readPlainly depth)
      (initializerParser (readPlainly depth)) ss start) (limit - count) n) input j (some r)) :
    Parser.ComesTo (fun depth => extended (Suffix.readAny (readPlainly depth)
      (initializerParser (readPlainly depth)) ss start) limit head) input i (some r) := by
  induction h with
  | refl => exact hrest
  | @step count _ _ _ _ _ _ _ hstep ih =>
    refine ih (by omega) ?_
    rw [show limit - count = limit - (count + 1) + 1 by omega]
    exact ComesTo.orElse_some (ComesTo.bind hstep hrest)

/-- The steps are taken, and no more of them can be. -/
theorem Steps.extended {limit : Nat} (h : Steps ss input start count head i n j)
    (hlimit : count ≤ limit) (hend : count = limit ∨ Suffix.ComesTo ss input start n j none) :
    Parser.ComesTo (fun depth => extended (Suffix.readAny (readPlainly depth)
      (initializerParser (readPlainly depth)) ss start) limit head) input i (some (n, j)) := by
  refine h.extended_of hlimit ?_
  rcases hend with rfl | hnone
  · rw [Nat.sub_self]
    exact ComesTo.succeed n j
  · cases limit - count with
    | zero => exact ComesTo.succeed n j
    | succ rest =>
      exact ComesTo.orElse_none (ComesTo.bind_none hnone) (.succeed n j)

end Suffix

/-- How many suffixes may follow. -/
def Input.limit (input : Input) (repeated : Bool) : Nat :=
  if repeated then input.bound else 1

namespace Phrase

open ShaderSource.Parser (ComesTo)

variable {p : Phrase} {ss : List Suffix} {head n : Node}

/-- A node with suffixes: the node, and the steps that the suffixes take from it. -/
theorem ComesTo.suffixed {repeated : Bool} (hfirst : p.ComesTo input i (some (head, j)))
    (hsteps : Suffix.Steps ss input i count head j n k) (hlimit : count ≤ input.limit repeated)
    (hend : count = input.limit repeated ∨ Suffix.ComesTo ss input i n k none) :
    (Phrase.suffixed p repeated ss).ComesTo input i (some (n, k)) := by
  simp only [ComesTo, parser, read]
  refine (ComesTo.here i).bind (ComesTo.bind hfirst ?_)
  cases repeated with
  | true => exact (ComesTo.bound j).bind (hsteps.extended hlimit hend)
  | false => exact (ComesTo.pure 1 j).bind (hsteps.extended hlimit hend)

theorem ComesTo.suffixed_none {repeated : Bool} (h : p.ComesTo input i none) :
    (Phrase.suffixed p repeated ss).ComesTo input i none := by
  simp only [ComesTo, parser, read]
  exact (ComesTo.here i).bind (ComesTo.bind_none h)

/-! ### Lists -/

/-- What follows commas is read up to where no comma is. -/
theorem Tail.repeated (h : p.Tail input j rest k) (hcount : rest.length ≤ count)
    (hend : input.Lacks [","] k) :
    Parser.ComesTo (fun depth => Parser.repeated
      (afterComma (p.parser (readPlainly depth))) count) input j (some (rest, k)) := by
  induction h generalizing count with
  | nil =>
    cases count with
    | zero => exact .succeed [] _
    | succ count =>
      refine Parser.ComesTo.orElse_none (Parser.ComesTo.bind_none ?_) (.succeed [] _)
      exact ComesTo.bind_none (.token_none hend)
  | @cons i j k n rest hcomma hnode _ ih =>
    obtain ⟨count, rfl⟩ : ∃ c, count = c + 1 := ⟨count - 1, by simp at hcount; omega⟩
    refine Parser.ComesTo.orElse_some (Parser.ComesTo.bind ?_ (Parser.ComesTo.bind
      (ih (by simpa using hcount) hend) (.pure _ _)))
    exact (ComesTo.token hcomma).bind (ComesTo.bind hnode (.pure _ _))

theorem Tail.separated (hfirst : p.ComesTo input i (some (n, j))) (h : p.Tail input j rest k)
    (hlength : rest.length ≤ input.bound) (hend : input.Lacks [","] k) :
    Parser.ComesTo (fun depth => Parser.separated (p.parser (readPlainly depth))) input i
      (some ((n, rest), k)) :=
  ComesTo.bind hfirst (ComesTo.bind
    ((ComesTo.bound j).bind (h.repeated hlength hend)) (.pure _ _))

/-- Nodes that follow each other are read up to where none is. -/
theorem Chain.repeated_of {ms : List Node} (h : p.Chain input i ns j)
    (hcount : ns.length ≤ count)
    (hrest : Parser.ComesTo (fun depth => Parser.repeated (p.parser (readPlainly depth))
      (count - ns.length)) input j (some (ms, k))) :
    Parser.ComesTo (fun depth => Parser.repeated (p.parser (readPlainly depth)) count) input i
      (some (ns ++ ms, k)) := by
  induction h generalizing ms with
  | nil => exact hrest
  | @snoc j l ns m _ hnode ih =>
    rw [List.append_assoc]
    rw [List.length_append, List.length_singleton] at hcount hrest
    refine ih (by omega) ?_
    rw [show count - ns.length = count - (ns.length + 1) + 1 by omega]
    exact Parser.ComesTo.orElse_some (Parser.ComesTo.bind hnode (hrest.bind (.pure _ _)))

theorem Chain.many (h : p.Chain input i ns j) (hlength : ns.length ≤ input.bound)
    (hend : p.ComesTo input j none) :
    Parser.ComesTo (fun depth => many (p.parser (readPlainly depth))) input i
      (some (ns, j)) := by
  refine (ComesTo.bound i).bind ?_
  rw [← List.append_nil ns]
  refine h.repeated_of hlength ?_
  cases input.bound - ns.length with
  | zero => exact .succeed [] j
  | succ rest => exact Parser.ComesTo.orElse_none (Parser.ComesTo.bind_none hend) (.succeed [] j)

/-- A node that no comma follows stands for itself. -/
theorem ComesTo.joined_one (h : p.ComesTo input i (some (n, j))) (hend : input.Lacks [","] j) :
    (Phrase.joined kind p).ComesTo input i (some (n, j)) := by
  simp only [ComesTo, parser, read]
  exact (ComesTo.here i).bind
    ((Tail.separated h .nil (Nat.zero_le _) hend).bind (.pure _ _))

theorem ComesTo.joined (hrest : rest ≠ []) (hfirst : p.ComesTo input i (some (n, j)))
    (htail : p.Tail input j rest k) (hlength : rest.length ≤ input.bound)
    (hend : input.Lacks [","] k) :
    (Phrase.joined kind p).ComesTo input i
      (some (.mk kind NodeId.detached (input.nodeSpan i k) [separatedPart n rest], k)) := by
  simp only [ComesTo, parser, read]
  refine (ComesTo.here i).bind ((Tail.separated hfirst htail hlength hend).bind ?_)
  simp only [List.isEmpty_eq_false_iff.mpr hrest, Bool.false_eq_true, if_false]
  exact .node kind i k _

theorem ComesTo.joined_none (h : p.ComesTo input i none) :
    (Phrase.joined kind p).ComesTo input i none := by
  simp only [ComesTo, parser, read]
  exact (ComesTo.here i).bind
    (ComesTo.bind_none (ComesTo.bind_none h))

end Phrase

/-! ### Items -/

namespace Item

open ShaderSource.Parser (ComesTo)

variable {p : Phrase} {item : Item} {items : List Item} {ps : List Part}

theorem ComesTo.nil (i : Nat) : Item.ComesTo [] input i (some ([], i)) := by
  intro before
  simp only [Item.readAll]
  exact .pure [] i

/-- One item after the other. -/
theorem ComesTo.cons (hitem : item.Yields input i (some (ps, j)))
    (hitems : Item.ComesTo items input j o) :
    Item.ComesTo (item :: items) input i (o.map fun r => (ps ++ r.1, r.2)) := by
  intro before
  simp only [Item.readAll]
  refine (hitem before).bind ?_
  cases o with
  | none => exact (hitems _).bind_none
  | some r => exact (hitems _).bind (.pure _ _)

theorem ComesTo.cons_none (hitem : item.Yields input i none) (items : List Item) :
    Item.ComesTo (item :: items) input i none := by
  intro before
  simp only [Item.readAll]
  exact (hitem before).bind_none

theorem Yields.token (h : t.accepts (input.lexeme i) = true) :
    (Item.token t).Yields input i (some ([.token (input.lexeme i).token], i + 1)) := by
  intro before
  simp only [Item.read]
  exact (ComesTo.token h).bind (.pure _ _)

theorem Yields.token_none (h : t.accepts (input.lexeme i) = false) :
    (Item.token t).Yields input i none := by
  intro before
  simp only [Item.read]
  exact (ComesTo.token_none h).bind_none

theorem Yields.child (h : p.ComesTo input i (some (n, j))) :
    (Item.child p).Yields input i (some ([.child n], j)) := by
  intro before
  simp only [Item.read]
  exact ComesTo.bind h (.pure _ _)

theorem Yields.child_none (h : p.ComesTo input i none) : (Item.child p).Yields input i none := by
  intro before
  simp only [Item.read]
  exact ComesTo.bind_none h

theorem Yields.optional (h : p.ComesTo input i (some (n, j))) :
    (Item.optional p).Yields input i (some ([.optChild (some n)], j)) := by
  intro before
  simp only [Item.read]
  exact ComesTo.bind (a := some n) (j := j)
    (ComesTo.orElse_some (ComesTo.bind h (.pure (some n) j))) (.pure _ _)

theorem Yields.optional_none (h : p.ComesTo input i none) :
    (Item.optional p).Yields input i (some ([.optChild none], i)) := by
  intro before
  simp only [Item.read]
  exact ComesTo.bind (a := none) (j := i)
    (ComesTo.orElse_none (ComesTo.bind_none h) (.succeed none i)) (.pure _ _)

theorem Yields.list (h : p.Chain input i ns j) (hlength : ns.length ≤ input.bound)
    (hend : p.ComesTo input j none) : (Item.list 0 p).Yields input i (some ([.list ns], j)) := by
  intro before
  simp only [Item.read]
  exact (h.many hlength hend).bind (.pure _ _)

theorem Yields.separated (hfirst : p.ComesTo input i (some (n, j))) (htail : p.Tail input j rest k)
    (hlength : rest.length ≤ input.bound) (hend : input.Lacks [","] k) :
    (Item.separated .zeroOrMore p).Yields input i (some ([separatedPart n rest], k)) := by
  intro before
  simp only [Item.read]
  exact ComesTo.bind (a := separatedPart n rest) (j := k)
    (ComesTo.orElse_some
      ((Tail.separated hfirst htail hlength hend).bind (.pure _ k))) (.pure _ _)

theorem Yields.separated_none (h : p.ComesTo input i none) :
    (Item.separated .zeroOrMore p).Yields input i (some ([.separated [] []], i)) := by
  intro before
  simp only [Item.read]
  exact ComesTo.bind (a := Part.separated [] []) (j := i)
    (ComesTo.orElse_none (ComesTo.bind_none (ComesTo.bind_none h))
      (.succeed _ i)) (.pure _ _)

theorem Yields.choose_no {yes no : List Item} (hlooks : Parser.looksAt input i ahead = false)
    (h : Item.ComesTo no input i o) : (Item.choose ahead noted yes no).Yields input i o := by
  intro before
  simp only [Item.read]
  refine (ComesTo.sees ahead i).bind ?_
  rw [hlooks]
  exact (ComesTo.note noted i).bind (h before)

end Item

/-! ### Whole sources -/

/-- More depth does not change a run that remembers and has enough. -/
theorem Rule.read_mono {depth depth' : Nat} (hle : depth ≤ depth') (r : Rule) :
    (Comparison.below Memo input).Simulates 0 (Rule.read depth r) (Rule.read depth' r) := by
  have hrequest : ∀ {r : Rule} {p q : Parser Memo Node},
      (Comparison.below Memo input).Simulates 0 p q →
        (Comparison.below Memo input).Simulates 0 (Memo.request r p) (Memo.request r q) := by
    rintro r p q h i s _ hi rfl
    have hrun := h i s s hi rfl
    change (Comparison.below Memo input).Agree _ (Memo.request r p input i s)
      (Memo.request r q input i s)
    unfold Memo.request
    split
    · exact .failed rfl
    · exact .matched rfl (Nat.zero_le _)
    · change (Comparison.below Memo input).Agree _ (p input i s) (q input i s) at hrun
      generalize p input i s = o at hrun ⊢
      generalize q input i s = o' at hrun ⊢
      cases hrun with
      | spared h => exact .spared h
      | error h => exact .error h
      | failed h =>
        cases h
        exact .failed rfl
      | matched h =>
        cases h
        exact .matched rfl (Nat.zero_le _)
  induction depth generalizing depth' r with
  | zero =>
    have hstop : ∀ q : Parser Memo Node,
        (Comparison.below Memo input).Simulates 0 (stopAt .nestingTooDeep) q :=
      fun q i s s' _ _ => .spared ⟨_, rfl⟩
    cases depth' <;> simp only [Rule.read, readWith] <;> exact hrequest (hstop _)
  | succ depth ih =>
    obtain ⟨depth', rfl⟩ : ∃ d, depth' = d + 1 := ⟨depth' - 1, by omega⟩
    exact hrequest
      ((Comparison.congruence _ 0).parser (fun r => ih (by omega) r) (Grammar.production r))

/-- What the root of a source comes to is what the source is read as, unless it nests too deeply. -/
theorem readTree_of_root (start : Start)
    (h : Parser.ComesTo (fun depth => start.root (readPlainly depth) input.lexemes.leading) input 0
      (some r)) (source : Option String) :
    (∃ span, readTree start input source = .error (.nestingTooDeep span)) ∨
      readTree start input source = .ok r.1 := by
  obtain ⟨enough, henough⟩ := h
  obtain ⟨g, hplain⟩ := henough (max enough maxDepth) (by omega) Failure.initial
  have hread := (Comparison.congruence (.faithful input) 0).root
    (read_simulates (max enough maxDepth)) start input.lexemes.leading 0 ⟨(), Failure.initial⟩
    ⟨Memo.empty, Failure.initial⟩ (Nat.le_refl _) ⟨rfl, Memo.faithful_empty input⟩
  have hbelow := Comparison.below_cases ((Comparison.congruence (.below Memo input) 0).root
    (read_mono (Nat.le_max_right enough maxDepth)) start input.lexemes.leading) 0
    ⟨Memo.empty, Failure.initial⟩
  unfold readTree run
  rcases hbelow with ⟨span, hdeep⟩ | heq
  · exact .inl ⟨span, by rw [hdeep]⟩
  · change (Comparison.faithful input).Agree _ (start.root _ _ input 0 _)
      (start.root _ _ input 0 _) at hread
    rw [show start.root _ _ input 0 _ = _ from hplain, heq] at hread
    generalize start.root (Rule.read maxDepth) _ input 0 _ = o at hread ⊢
    cases hread
    exact .inr rfl

/-- A source whose expression reaches its end is read as that expression, unless it nests too
deeply. -/
theorem readTree_of_comesTo (h : (Phrase.rule .expression).ComesTo input 0 (some (n, i)))
    (hend : (input.lexeme i).isEnd = true) (source : Option String) :
    (∃ span, readTree .expression input source = .error (.nestingTooDeep span)) ∨
      readTree .expression input source =
        .ok (.mk .program NodeId.detached (input.nodeSpan 0 i)
          [.text input.lexemes.leading, .list [n]]) :=
  readTree_of_root .expression (r := (_, i))
    (ComesTo.bind (a := [n]) (j := i) (ComesTo.bind h (.pure [n] i))
      ((ComesTo.atEnd hend).bind (.node .program 0 i _))) source

end ShaderSource
