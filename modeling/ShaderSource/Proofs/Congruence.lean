import ShaderSource.Grammar.Tree

/-!
# Relations between parsers

Reading puts parsers together in a few ways only: a parser either looks at the lexemes without
touching its table, or stops with an error, or runs one parser after the other, or runs a second
one where the first fails. A relation between parsers that respects these four is a congruence.
If rules are read by related parsers, so is every phrase, and so are whole sources.

Two readings of the same grammar are compared by a congruence that relates how they read rules.
A property of single parsers is a congruence that does not look at its second argument.

## Main results

* `Parser.Congruence.phrase`: phrases are related if rules and initializers are.
* `Parser.Congruence.root`: whole sources are related if rules are.
-/

namespace ShaderSource

@[simp] theorem Failure.note_nil (f : Failure) (place : Nat) : f.note place [] = f := by
  simp [Failure.note]

namespace Parser

variable {μ ν α β : Type}

/-! ### Parsers that only look -/

/-- Matches what `f` finds at the place, together with the number of lexemes that it takes, and
notes what was expected there. -/
def look (f : Input → Nat → Option (α × Nat)) (noted : Input → Nat → List String) : Parser μ α :=
  fun input place progress =>
    .ok ((f input place).map fun r => (r.1, place + r.2),
      ⟨progress.table, progress.failure.note place (noted input place)⟩)

/-- Stops with the error for a statement that stands in the wrong place. -/
def stop (place : Nat) : Parser μ α :=
  fun input _ _ => .error (.invalidSwitchBody (input.lexeme place).span)

theorem succeed_eq_look (a : α) :
    (succeed a : Parser μ α) = look (fun _ _ => some (a, 0)) fun _ _ => [] := by
  funext input i s
  simp [succeed, look]

theorem fail_eq_look : (fail : Parser μ α) = look (fun _ _ => none) fun _ _ => [] := by
  funext input i s
  simp [fail, look]

theorem here_eq_look : (here : Parser μ Nat) = look (fun _ i => some (i, 0)) fun _ _ => [] := by
  funext input i s
  simp [here, look]

theorem bound_eq_look :
    (bound : Parser μ Nat) = look (fun input _ => some (input.bound, 0)) fun _ _ => [] := by
  funext input i s
  simp [bound, look]

theorem note_eq_look (expected : List String) :
    (note expected : Parser μ Unit) = look (fun _ _ => some ((), 0)) fun _ _ => expected :=
  rfl

theorem sees_eq_look (ahead : List Terminal) :
    (sees ahead : Parser μ Bool) =
      look (fun input i => some (looksAt input i ahead, 0)) fun _ _ => [] := by
  funext input i s
  simp [sees, look]

theorem token_eq_look (t : Terminal) :
    (token t : Parser μ Token) =
      look
        (fun input i =>
          if t.accepts (input.lexeme i) then some ((input.lexeme i).token, 1) else none)
        fun input i => if t.accepts (input.lexeme i) then [] else t.expected := by
  funext input i s
  by_cases h : t.accepts (input.lexeme i) = true <;> simp [token, look, h]

theorem atEnd_eq_look :
    (atEnd : Parser μ Unit) =
      look (fun input i => if (input.lexeme i).isEnd then some ((), 0) else none)
        fun input i => if (input.lexeme i).isEnd then [] else Terminal.endOfInput.expected := by
  funext input i s
  by_cases h : (input.lexeme i).isEnd = true <;> simp [atEnd, look, h]

theorem node_eq_look (kind : Kind) (first : Nat) (parts : List Part) :
    (node kind first parts : Parser μ Node) =
      look
        (fun input i => some (.mk kind NodeId.detached (input.nodeSpan first i) parts, 0))
        fun _ _ => [] := by
  funext input i s
  simp [node, look]

/-! ### Congruences -/

/-- A relation between parsers that is respected by all ways to put parsers together. -/
structure Congruence (R : (α : Type) → Parser μ α → Parser ν α → Prop) : Prop where
  look : ∀ {α : Type} (f : Input → Nat → Option (α × Nat)) (noted : Input → Nat → List String),
    R α (look f noted) (look f noted)
  stop : ∀ {α : Type} (place : Nat), R α (stop place) (stop place)
  andThen : ∀ {α β : Type} {p : Parser μ α} {q : Parser ν α} {f : α → Parser μ β}
    {g : α → Parser ν β}, R α p q → (∀ a, R β (f a) (g a)) → R β (p.andThen f) (q.andThen g)
  orElse : ∀ {α : Type} {p p' : Parser μ α} {q q' : Parser ν α},
    R α p q → R α p' q' → R α (p.orElse p') (q.orElse q')

namespace Congruence

variable {R : (α : Type) → Parser μ α → Parser ν α → Prop} (hR : Congruence R)

include hR

theorem bind {p : Parser μ α} {q : Parser ν α} {f : α → Parser μ β} {g : α → Parser ν β}
    (hp : R α p q) (hf : ∀ a, R β (f a) (g a)) : R β (p >>= f) (q >>= g) :=
  hR.andThen hp hf

theorem succeed (a : α) : R α (Parser.succeed a) (Parser.succeed a) := by
  rw [succeed_eq_look, succeed_eq_look]
  exact hR.look _ _

theorem pure (a : α) : R α (Pure.pure a) (Pure.pure a) :=
  hR.succeed a

theorem fail : R α Parser.fail Parser.fail := by
  rw [fail_eq_look, fail_eq_look]
  exact hR.look _ _

theorem here : R Nat Parser.here Parser.here := by
  rw [here_eq_look, here_eq_look]
  exact hR.look _ _

theorem bound : R Nat Parser.bound Parser.bound := by
  rw [bound_eq_look, bound_eq_look]
  exact hR.look _ _

theorem note (expected : List String) : R Unit (Parser.note expected) (Parser.note expected) := by
  rw [note_eq_look, note_eq_look]
  exact hR.look _ _

theorem sees (ahead : List Terminal) : R Bool (Parser.sees ahead) (Parser.sees ahead) := by
  rw [sees_eq_look, sees_eq_look]
  exact hR.look _ _

theorem token (t : Terminal) : R Token (Parser.token t) (Parser.token t) := by
  rw [token_eq_look, token_eq_look]
  exact hR.look _ _

theorem atEnd : R Unit Parser.atEnd Parser.atEnd := by
  rw [atEnd_eq_look, atEnd_eq_look]
  exact hR.look _ _

theorem node (kind : Kind) (first : Nat) (parts : List Part) :
    R Node (Parser.node kind first parts) (Parser.node kind first parts) := by
  rw [node_eq_look, node_eq_look]
  exact hR.look _ _

section Lists

variable {p : Parser μ α} {q : Parser ν α} (hp : R α p q)

include hp

theorem optional : R (Option α) (Parser.optional p) (Parser.optional q) :=
  hR.orElse (hR.bind hp fun a => hR.pure (some a)) (hR.succeed none)

theorem repeated (count : Nat) :
    R (List α) (Parser.repeated p count) (Parser.repeated q count) := by
  induction count with
  | zero => exact hR.succeed []
  | succ count ih =>
    exact hR.orElse (hR.bind hp fun a => hR.bind ih fun rest => hR.pure (a :: rest))
      (hR.succeed [])

theorem many : R (List α) (Parser.many p) (Parser.many q) :=
  hR.bind hR.bound fun count => hR.repeated hp count

theorem separated : R (α × List (Token × α)) (Parser.separated p) (Parser.separated q) :=
  hR.bind hp fun a =>
    hR.bind (hR.many (hR.bind (hR.token _) fun t => hR.bind hp fun b => hR.pure (t, b)))
      fun rest => hR.pure (a, rest)

end Lists

theorem extended {step : α → Parser μ α} {step' : α → Parser ν α}
    (hstep : ∀ a, R α (step a) (step' a)) (count : Nat) (a : α) :
    R α (Parser.extended step count a) (Parser.extended step' count a) := by
  induction count generalizing a with
  | zero => exact hR.succeed a
  | succ count ih => exact hR.orElse (hR.bind (hstep a) ih) (hR.succeed a)

theorem listing {p : Parser μ Node} {q : Parser ν Node} (hp : R Node p q) (mode : Listing)
    (before : Option Part) :
    R Part (Parser.listing mode before p) (Parser.listing mode before q) := by
  have hone : R Part (oneOrMore p) (oneOrMore q) :=
    hR.bind (hR.separated hp) fun a => hR.pure (separatedPart a.1 a.2)
  have hzero : R Part (zeroOrMore p) (zeroOrMore q) :=
    hR.orElse hone (hR.succeed _)
  cases mode with
  | oneOrMore => exact hone
  | zeroOrMore => exact hzero
  | trailing =>
    exact hR.bind (hR.separated hp) fun a => hR.bind (hR.optional (hR.token _)) fun last =>
      hR.pure _
  | oneUnlessBare =>
    simp only [Parser.listing]
    split
    · exact hzero
    · exact hone

/-! ### Reading -/

variable {call : Rule → Parser μ Node} {call' : Rule → Parser ν Node}
  {nested : Parser μ Node} {nested' : Parser ν Node}
  (hcall : ∀ r, R Node (call r) (call' r))

include hcall

section Nested

set_option linter.unusedSectionVars false

variable (hnested : R Node nested nested')

include hnested

mutual

/-- Phrases are related if rules and initializers are. -/
theorem phrase : (p : Phrase) → R Node (p.read call nested) (p.read call' nested')
  | .node kind its => by
    rw [Phrase.read, Phrase.read]
    exact hR.bind hR.here fun first => hR.bind (items its none) fun ps =>
      hR.node kind first ps
  | .rule r => by
    rw [Phrase.read, Phrase.read]
    exact hcall r
  | .initializer => by
    rw [Phrase.read, Phrase.read]
    exact hnested
  | .orElse first second => by
    rw [Phrase.read, Phrase.read]
    exact hR.orElse (phrase first) (phrase second)
  | .choose ahead noted yes no => by
    rw [Phrase.read, Phrase.read]
    refine hR.bind (hR.sees ahead) fun seen => ?_
    cases seen with
    | true => exact phrase yes
    | false => exact hR.bind (hR.note noted) fun _ => phrase no
  | .refuse expected => by
    rw [Phrase.read, Phrase.read]
    exact hR.bind (hR.note expected) fun _ => hR.fail
  | .suffixed first repeated ss => by
    rw [Phrase.read, Phrase.read]
    refine hR.bind hR.here fun start =>
      hR.bind (phrase first) fun head => ?_
    have hextended := hR.extended (suffixes ss start)
    cases repeated with
    | true => exact hR.bind hR.bound fun count => hextended count head
    | false => exact hextended 1 head
  | .joined kind item => by
    rw [Phrase.read, Phrase.read]
    refine hR.bind hR.here fun start =>
      hR.bind (hR.separated (phrase item)) fun a => ?_
    obtain ⟨first, rest⟩ := a
    cases rest with
    | nil => exact hR.pure first
    | cons r rest => exact hR.node kind start _

theorem suffixes : (ss : List Suffix) → (start : Nat) → (head : Node) →
      R Node (Suffix.readAny call nested ss start head) (Suffix.readAny call' nested' ss start head)
  | [], start, head => by
    rw [Suffix.readAny, Suffix.readAny]
    exact hR.fail
  | .mk kind its follow :: others, start, head => by
    rw [Suffix.readAny, Suffix.readAny]
    exact hR.orElse
      (hR.bind (items its none) fun ps => hR.bind (hR.node kind start _) fun n =>
        hR.orElse (suffixes follow start n) (hR.succeed n))
      (suffixes others start head)

theorem items : (its : List Item) → (before : Option Part) →
      R (List Part) (Item.readAll call nested before its) (Item.readAll call' nested' before its)
  | [], before => by
    rw [Item.readAll, Item.readAll]
    exact hR.pure []
  | it :: its, before => by
    rw [Item.readAll, Item.readAll]
    exact hR.bind (item it before) fun ps =>
      hR.bind (items its _) fun qs => hR.pure (ps ++ qs)

theorem item : (it : Item) → (before : Option Part) →
      R (List Part) (Item.read call nested before it) (Item.read call' nested' before it)
  | .token t, before | .presentToken t, before => by
    rw [Item.read, Item.read]
    exact hR.bind (hR.token t) fun a => hR.pure _
  | .child p, before | .present p, before | .single p, before => by
    rw [Item.read, Item.read]
    exact hR.bind (phrase p) fun n => hR.pure _
  | .optional p, before => by
    rw [Item.read, Item.read]
    exact hR.bind (hR.optional (phrase p)) fun o => hR.pure _
  | .list least p, before => by
    rw [Item.read, Item.read]
    refine hR.bind (hR.many (phrase p)) fun ns => ?_
    split
    · exact hR.fail
    · exact hR.pure _
  | .separated mode p, before => by
    rw [Item.read, Item.read]
    exact hR.bind (hR.listing (phrase p) mode before) fun part => hR.pure _
  | .branch word p, before => by
    rw [Item.read, Item.read]
    exact hR.bind (hR.token word) fun t =>
      hR.bind (phrase p) fun n => hR.pure _
  | .empty part, before => by
    rw [Item.read, Item.read]
    exact hR.pure _
  | .choose ahead noted yes no, before => by
    rw [Item.read, Item.read]
    refine hR.bind (hR.sees ahead) fun seen => ?_
    cases seen with
    | true => exact items yes before
    | false => exact hR.bind (hR.note noted) fun _ => items no before
  | .forbid closing p, before => by
    rw [Item.read, Item.read]
    refine hR.bind (hR.sees [closing]) fun seen => ?_
    cases seen with
    | true => exact hR.pure []
    | false =>
      refine hR.bind hR.here fun first =>
        hR.bind (hR.optional (phrase p)) fun o => ?_
      cases o with
      | none => exact hR.pure []
      | some n => exact hR.stop _

end

end Nested

theorem initializer : R Node (initializerParser call) (initializerParser call') := by
  refine hR.bind hR.bound fun depth => ?_
  induction depth with
  | zero => exact hR.fail
  | succ depth ih => exact hR.phrase hcall ih Grammar.initializer

/-- Phrases, initializers in them included, are related if rules are. -/
theorem parser (p : Phrase) : R Node (p.parser call) (p.parser call') :=
  hR.phrase hcall (hR.initializer hcall) p

/-- Whole sources are related if rules are. -/
theorem root (start : Start) (leading : String) :
    R Node (start.root call leading) (start.root call' leading) := by
  have hnodes : R (List Node) (start.nodes call) (start.nodes call') := by
    cases start with
    | translationUnit => exact hR.many (hR.parser hcall Grammar.externalDeclaration)
    | externalDeclaration =>
      exact hR.bind (hR.parser hcall Grammar.externalDeclaration) fun n => hR.pure [n]
    | statement => exact hR.bind (hcall .statement) fun n => hR.pure [n]
    | expression => exact hR.bind (hcall .expression) fun n => hR.pure [n]
  exact hR.bind hnodes fun ns => hR.bind hR.atEnd fun _ => hR.node .program 0 _

end Congruence

end Parser

end ShaderSource
