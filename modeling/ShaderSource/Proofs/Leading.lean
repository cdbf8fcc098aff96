import ShaderSource.Proofs.Lockstep
import ShaderSource.Proofs.Simulation

/-!
# Rules that are wanted where a rule begins

A production may want other rules before it has taken a lexeme, at the very place where it begins
itself. These rules are of lower rank, `Phrase.descends` checks it, so no rule is wanted where it
is being read already. Once a lexeme is taken any rule may be wanted, but further on.

So two readings of a production agree if the readings of lower rules agree at its place and those of
all rules agree behind it.

## Main results

* `Parser.Comparison.phrase_begins`: phrases agree at a place if lower rules agree there, and all
  rules behind it.
* `Grammar.production_descends`: productions want only rules below their own where they begin.
-/

namespace ShaderSource

open List ShaderSource.Parser

/-- Rules rank above those that they want where they begin. -/
def Rule.rank : Rule → Nat
  | .typeSpecifier | .primary => 0
  | .fullySpecifiedType | .functionCall => 1
  | .functionPrototype | .postfixExpr => 2
  | .declaration | .unary => 3
  | .binary level => 14 - level
  | .ternary => 15
  | .assignment => 16
  | .expression => 17
  | .statement => 18

mutual

/-- Whether the phrase takes a lexeme where it matches, and before that wants only rules of lower
rank than the given one. -/
def Phrase.descends (rank : Nat) : Phrase → Bool
  | .node _ items => Item.descendAll rank items && items.any Item.takes
  | .rule r => r.rank < rank
  | .initializer => false
  | .orElse first second => first.descends rank && second.descends rank
  | .choose _ _ yes no => yes.descends rank && no.descends rank
  | .refuse _ => true
  | .suffixed first _ _ => first.descends rank
  | .joined _ item => item.descends rank

/-- Whether the items want only rules of lower rank before one of them takes a lexeme. -/
def Item.descendAll (rank : Nat) : List Item → Bool
  | [] => true
  | item :: items => item.descends rank && (item.takes || Item.descendAll rank items)

/-- Whether the item wants only rules of lower rank before it takes a lexeme. -/
def Item.descends (rank : Nat) : Item → Bool
  | .token t | .presentToken t | .branch t _ => t != .endOfInput
  | .child p | .present p | .optional p | .list _ p | .separated _ p | .single p | .forbid _ p =>
    p.descends rank
  | .empty _ => true
  | .choose _ _ yes no => Item.descendAll rank yes && Item.descendAll rank no

end

/-- Productions want only rules below their own where they begin. -/
theorem Grammar.production_descends (r : Rule) : (production r).descends r.rank = true := by
  cases r with
  | binary level => revert level; decide +kernel
  | _ => decide +kernel

namespace Parser.Comparison

variable {μ ν α β : Type} {C : Comparison μ ν} {i : Nat} {takes : α → Bool}

/-- The parsers agree at a place. A match has taken a lexeme, unless its value need not. -/
def Begins (C : Comparison μ ν) (i : Nat) (takes : α → Bool) (p : Parser μ α) (q : Parser ν α) :
    Prop :=
  ∀ s s', C.States s s' → C.Agree
    (fun a j => i < j ∧ (C.input.lexeme i).isEnd = false ∨ takes a = false ∧ j = i)
    (p C.input i s) (q C.input i s')

namespace Begins

variable {p p' : Parser μ α} {q q' : Parser ν α}

theorem mono {takes' : α → Bool} (h : C.Begins i takes p q)
    (htakes : ∀ a, takes a = false → takes' a = false) : C.Begins i takes' p q :=
  fun s s' hs => (h s s' hs).mono fun a _ => Or.imp_right (And.imp_left (htakes a))

theorem pure {a : α} (h : takes a = false) : C.Begins i takes (Pure.pure a) (Pure.pure a) :=
  fun _ _ hs => .matched hs (.inr ⟨h, rfl⟩)

theorem fail : C.Begins i takes Parser.fail Parser.fail :=
  fun _ _ hs => .failed hs

theorem token {t : Terminal} (h : (t != .endOfInput) = true) :
    C.Begins i (fun _ => true) (Parser.token t) (Parser.token t) := by
  intro s s' hs
  unfold Parser.token
  split
  · rename_i haccepts
    exact .matched hs (.inl ⟨Nat.lt_succ_self _, Terminal.not_isEnd_of_accepts h haccepts⟩)
  · exact .failed (C.note _ _ hs)

theorem noted (h : C.Begins i takes p q) (expected : List String) :
    C.Begins i takes (Parser.note expected >>= fun _ => p)
      (Parser.note expected >>= fun _ => q) :=
  fun _ _ hs => h _ _ (C.note i expected hs)

theorem sees {ahead : List Terminal} {f : Bool → Parser μ α} {g : Bool → Parser ν α}
    (h : ∀ seen, C.Begins i takes (f seen) (g seen)) :
    C.Begins i takes (Parser.sees ahead >>= f) (Parser.sees ahead >>= g) :=
  h (looksAt C.input i ahead)

theorem bind {takes' : β → Bool} {f : α → Parser μ β} {g : α → Parser ν β}
    (hp : C.Begins i takes p q)
    (hbehind : (C.input.lexeme i).isEnd = false → ∀ a, C.Simulates (i + 1) (f a) (g a))
    (hhere : ∀ a, takes a = false → C.Begins i takes' (f a) (g a)) :
    C.Begins i takes' (p >>= f) (q >>= g) := by
  intro s s' hs
  refine (hp s s' hs).andThen fun a j t t' hend ht => ?_
  rcases hend with ⟨hj, hlexeme⟩ | ⟨htakes, rfl⟩
  · exact (hbehind hlexeme a j t t' hj ht).mono fun _ _ hk => .inl ⟨hk, hlexeme⟩
  · exact hhere a htakes t t' ht

theorem orElse (hp : C.Begins i takes p q) (hp' : C.Begins i takes p' q') :
    C.Begins i takes (p.orElse p') (q.orElse q') :=
  fun s s' hs => (hp s s' hs).orElse hp'

theorem map {takes' : β → Bool} {f : α → β} (hp : C.Begins i takes p q)
    (h : ∀ a, takes a = false → takes' (f a) = false) :
    C.Begins i takes' (p >>= fun a => Pure.pure (f a)) (q >>= fun a => Pure.pure (f a)) :=
  hp.bind (fun _ _ => (C.congruence _).pure _) fun a ha => .pure (h a ha)

section Lists

variable (hp : C.Begins i (fun _ => true) p q)
  (hbehind : (C.input.lexeme i).isEnd = false → C.Simulates (i + 1) p q)

include hp

theorem optional : C.Begins i (fun _ => false) (Parser.optional p) (Parser.optional q) :=
  (hp.map fun _ => Bool.noConfusion).orElse (.pure rfl)

include hbehind

theorem many : C.Begins i (fun as => !as.isEmpty) (Parser.many p) (Parser.many q) := by
  suffices h : ∀ n, C.Begins i (fun as => !as.isEmpty) (repeated p n) (repeated q n) from
    h C.input.bound
  intro n
  cases n with
  | zero => exact .pure rfl
  | succ n =>
    refine orElse (hp.bind (fun hi a => ?_) fun _ => Bool.noConfusion) (.pure rfl)
    exact (C.congruence _).bind ((C.congruence _).repeated (hbehind hi) n)
      fun as => (C.congruence _).pure _

theorem separated : C.Begins i (fun _ => true) (Parser.separated p) (Parser.separated q) :=
  hp.bind (fun hi a => (C.congruence _).bind
    ((C.congruence _).many ((C.congruence _).bind ((C.congruence _).token _) fun t =>
      (C.congruence _).bind (hbehind hi) fun b => (C.congruence _).pure (t, b)))
    fun rest => (C.congruence _).pure (a, rest)) fun _ => Bool.noConfusion

end Lists

theorem listing {p : Parser μ Node} {q : Parser ν Node} (hp : C.Begins i (fun _ => true) p q)
    (hbehind : (C.input.lexeme i).isEnd = false → C.Simulates (i + 1) p q) (mode : Listing)
    (before : Option Part) :
    C.Begins i (fun _ => mode.least == 1) (Parser.listing mode before p)
      (Parser.listing mode before q) := by
  have hone : C.Begins i (fun _ => true) (oneOrMore p) (oneOrMore q) :=
    (separated hp hbehind).map fun _ => Bool.noConfusion
  have hzero : C.Begins i (fun _ => false) (zeroOrMore p) (zeroOrMore q) :=
    orElse (hone.mono fun _ => Bool.noConfusion) (.pure rfl)
  cases mode with
  | oneOrMore => exact hone
  | zeroOrMore => exact hzero
  | trailing =>
    refine (separated hp hbehind).bind (fun hi a => ?_) fun _ => Bool.noConfusion
    exact (C.congruence _).bind ((C.congruence _).optional ((C.congruence _).token _))
      fun last => (C.congruence _).pure _
  | oneUnlessBare =>
    simp only [Parser.listing]
    split
    · exact hzero
    · exact hone.mono fun _ => Bool.noConfusion

end Begins

/-! ### Phrases -/

variable {call : Rule → Parser μ Node} {call' : Rule → Parser ν Node} {nested : Parser μ Node}
  {nested' : Parser ν Node} {rank : Nat}
  (hlower : ∀ r, r.rank < rank → C.Begins i (fun _ => true) (call r) (call' r))
  (hcall : (C.input.lexeme i).isEnd = false → ∀ r, C.Simulates (i + 1) (call r) (call' r))

section Nested

set_option linter.unusedSectionVars false

variable (hnested : (C.input.lexeme i).isEnd = false → C.Simulates (i + 1) nested nested')

include hlower hcall hnested

mutual

/-- Phrases agree at a place if lower rules agree there, and all rules behind it. -/
theorem phrase_begins : (p : Phrase) → p.descends rank = true →
    C.Begins i (fun _ => true) (p.read call nested) (p.read call' nested')
  | .node kind its, h => by
    rw [Phrase.descends, Bool.and_eq_true] at h
    have hitems := items_begin its h.1 none
    rw [h.2] at hitems
    rw [Phrase.read, Phrase.read]
    exact hitems.bind (fun _ ps => (C.congruence _).node kind i ps) fun _ => Bool.noConfusion
  | .rule r, h => by
    rw [Phrase.descends, decide_eq_true_eq] at h
    rw [Phrase.read, Phrase.read]
    exact hlower r h
  | .initializer, h => by cases h
  | .orElse first second, h => by
    rw [Phrase.descends, Bool.and_eq_true] at h
    rw [Phrase.read, Phrase.read]
    exact (phrase_begins first h.1).orElse (phrase_begins second h.2)
  | .choose ahead noted yes no, h => by
    rw [Phrase.descends, Bool.and_eq_true] at h
    rw [Phrase.read, Phrase.read]
    refine Begins.sees fun seen => ?_
    cases seen with
    | true => exact phrase_begins yes h.1
    | false => exact Begins.noted (phrase_begins no h.2) noted
  | .refuse expected, _ => by
    rw [Phrase.read, Phrase.read]
    exact Begins.noted .fail expected
  | .suffixed first repeated ss, h => by
    rw [Phrase.read, Phrase.read]
    refine (phrase_begins first h).bind (fun hi head => ?_) fun _ => Bool.noConfusion
    have hextended := (C.congruence (i + 1)).extended
      ((C.congruence _).suffixes (hcall hi) (hnested hi) ss i)
    cases repeated with
    | true => exact (C.congruence _).bind (C.congruence _).bound fun count => hextended count head
    | false => exact hextended 1 head
  | .joined kind item, h => by
    rw [Phrase.read, Phrase.read]
    refine ((phrase_begins item h).separated fun hi =>
      (C.congruence _).phrase (hcall hi) (hnested hi) item).bind (fun hi a => ?_)
        fun _ => Bool.noConfusion
    obtain ⟨first, rest⟩ := a
    cases rest with
    | nil => exact (C.congruence _).pure first
    | cons r rest => exact (C.congruence _).node kind i _

theorem items_begin : (its : List Item) → Item.descendAll rank its = true →
    (before : Option Part) → C.Begins i (fun _ => its.any Item.takes)
      (Item.readAll call nested before its) (Item.readAll call' nested' before its)
  | [], _, before => by
    rw [Item.readAll, Item.readAll]
    exact .pure rfl
  | it :: its, h, before => by
    rw [Item.descendAll, Bool.and_eq_true, Bool.or_eq_true] at h
    rw [Item.readAll, Item.readAll]
    refine (item_begins it h.1 before).bind (fun hi ps => ?_) fun ps htakes => ?_
    · exact (C.congruence _).bind ((C.congruence _).items (hcall hi) (hnested hi) its _)
        fun qs => (C.congruence _).pure (ps ++ qs)
    · rw [any_cons, htakes, Bool.false_or]
      rw [htakes] at h
      exact (items_begin its (h.2.resolve_left Bool.noConfusion) _).map fun _ h => h

/-- An item is read alike where it begins. -/
theorem item_begins : (it : Item) → it.descends rank = true → (before : Option Part) →
    C.Begins i (fun _ => it.takes) (Item.read call nested before it)
      (Item.read call' nested' before it)
  | .token t, h, before | .presentToken t, h, before => by
    rw [Item.read, Item.read]
    exact (Begins.token h).map fun _ => Bool.noConfusion
  | .child p, h, before | .present p, h, before | .single p, h, before => by
    rw [Item.read, Item.read]
    exact (phrase_begins p h).map fun _ => Bool.noConfusion
  | .optional p, h, before => by
    rw [Item.read, Item.read]
    exact (phrase_begins p h).optional.map fun _ _ => rfl
  | .list least p, h, before => by
    rw [Item.read, Item.read]
    refine ((phrase_begins p h).many fun hi =>
      (C.congruence _).phrase (hcall hi) (hnested hi) p).bind (fun _ ns => ?_) fun ns hns => ?_
    · split
      · exact (C.congruence _).fail
      · exact (C.congruence _).pure _
    · obtain rfl : ns = [] := by simpa using hns
      cases least with
      | zero => exact .pure rfl
      | succ least => exact .fail
  | .separated mode p, h, before => by
    rw [Item.read, Item.read]
    exact ((phrase_begins p h).listing (fun hi =>
      (C.congruence _).phrase (hcall hi) (hnested hi) p) mode before).map fun _ h => h
  | .branch word p, h, before => by
    rw [Item.read, Item.read]
    refine (Begins.token h).bind (fun hi t => ?_) fun _ => Bool.noConfusion
    exact (C.congruence _).bind ((C.congruence _).phrase (hcall hi) (hnested hi) p) fun n =>
      (C.congruence _).pure _
  | .empty part, _, before => by
    rw [Item.read, Item.read]
    exact .pure rfl
  | .choose ahead noted yes no, h, before => by
    rw [Item.descends, Bool.and_eq_true] at h
    rw [Item.read, Item.read]
    refine Begins.sees fun seen => ?_
    cases seen with
    | true => exact (items_begin yes h.1 before).mono fun _ _ => rfl
    | false => exact Begins.noted ((items_begin no h.2 before).mono fun _ _ => rfl) noted
  | .forbid closing p, h, before => by
    rw [Item.read, Item.read]
    refine Begins.sees fun seen => ?_
    cases seen with
    | true => exact .pure rfl
    | false =>
      refine (phrase_begins p h).optional.bind (fun _ o => ?_) fun o _ => ?_
      · cases o with
        | none => exact (C.congruence _).pure []
        | some n => exact (C.congruence _).stop i
      · cases o with
        | none => exact .pure rfl
        | some n => exact fun _ _ _ => .error (C.forbidden _)

end

end Nested

include hlower hcall

/-- Phrases, initializers in them included, agree at a place if lower rules agree there, and all
rules behind it. -/
theorem parser_begins {p : Phrase} (h : p.descends rank = true) :
    C.Begins i (fun _ => true) (p.parser call) (p.parser call') :=
  phrase_begins hlower hcall (fun hi => (C.congruence _).initializer (hcall hi)) p h

end Parser.Comparison

end ShaderSource
