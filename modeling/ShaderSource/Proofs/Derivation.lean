import ShaderSource.Grammar.Tree

/-!
# Derivations

The productions are data, and reading is one way to use them. A derivation is another: it says
that a phrase stands for a node between two places, whatever was tried on the way there. The order
of alternatives and the look-ahead play no part in it; what stays is which lexemes went into which
part of which node. Properties of trees that were read are proved by induction on derivations,
one case for each way in which a piece of the grammar is used.

All forms of derivation are one family, `Derives`, over judgements: phrases, suffixes, items and
the two kinds of lists depend on each other, and a single family gives them a single induction.

Reading is sound for derivations with any table that holds only derived nodes. For rules that
remember, such a table is what a run starts with and what every step keeps.

## Main results

* `Phrase.read_sound`: what reading a phrase yields is derived from it.
* `Rule.read_sound`: the same for rules that remember.
* `readTree_sound`: the tree of a source is a list of derived nodes that reaches its end.
-/

namespace ShaderSource

open ShaderSource.Parser

/-! ### Judgements and their derivations -/

/-- What a stretch of lexemes can be derived as. -/
inductive Judgement where
  /-- The phrase stands for the node. -/
  | node (p : Phrase) (n : Node)
  /-- One of the suffixes makes `n` around `head`, which begins at `start`. -/
  | suffix (ss : List Suffix) (start : Nat) (head n : Node)
  /-- Suffixes, `count` of them at most, make `n` around `head`, which begins at `start`. -/
  | suffixes (ss : List Suffix) (count start : Nat) (head n : Node)
  /-- The items add the parts to a node. -/
  | parts (items : List Item) (ps : List Part)
  /-- The item adds the parts to a node. -/
  | item (item : Item) (ps : List Part)
  /-- The phrase stands for each of the nodes, which follow each other. -/
  | list (p : Phrase) (ns : List Node)
  /-- The phrase stands for each of the nodes, which have commas before them. -/
  | tail (p : Phrase) (rest : List (Token × Node))

/-- Derivations of judgements over the lexemes from one place to before another. -/
inductive Derives (input : Input) : Judgement → Nat → Nat → Prop
  | node {kind items ps i j} :
      Derives input (.parts items ps) i j →
      Derives input
        (.node (.node kind items) (.mk kind NodeId.detached (input.nodeSpan i j) ps)) i j
  | rule {r n i j} :
      Derives input (.node (Grammar.production r) n) i j → Derives input (.node (.rule r) n) i j
  | initializer {n i j} :
      Derives input (.node Grammar.initializer n) i j → Derives input (.node .initializer n) i j
  | first {p q n i j} :
      Derives input (.node p n) i j → Derives input (.node (.orElse p q) n) i j
  | second {p q n i j} :
      Derives input (.node q n) i j → Derives input (.node (.orElse p q) n) i j
  | yes {ahead noted p q n i j} :
      Derives input (.node p n) i j → Derives input (.node (.choose ahead noted p q) n) i j
  | no {ahead noted p q n i j} :
      Derives input (.node q n) i j → Derives input (.node (.choose ahead noted p q) n) i j
  | suffixed {p repeated ss count head n i k j} :
      (repeated = false → count ≤ 1) →
      Derives input (.node p head) i k → Derives input (.suffixes ss count i head n) k j →
      Derives input (.node (.suffixed p repeated ss) n) i j
  | alone {kind p n i j} :
      Derives input (.node p n) i j → Derives input (.node (.joined kind p) n) i j
  | joined {kind p n rest i k j} :
      rest ≠ [] → Derives input (.node p n) i k → Derives input (.tail p rest) k j →
      Derives input
        (.node (.joined kind p)
          (.mk kind NodeId.detached (input.nodeSpan i j) [Parser.separatedPart n rest])) i j
  | suffix {kind items follow others start head ps i j} :
      Derives input (.parts items ps) i j →
      Derives input
        (.suffix (.mk kind items follow :: others) start head
          (.mk kind NodeId.detached (input.nodeSpan start j) (.child head :: ps))) i j
  | follow {kind items follow others start head ps n i k j} :
      Derives input (.parts items ps) i k →
      Derives input
        (.suffix follow start
          (.mk kind NodeId.detached (input.nodeSpan start k) (.child head :: ps)) n) k j →
      Derives input (.suffix (.mk kind items follow :: others) start head n) i j
  | other {s others start head n i j} :
      Derives input (.suffix others start head n) i j →
      Derives input (.suffix (s :: others) start head n) i j
  | stop {ss count start head i} : Derives input (.suffixes ss count start head head) i i
  | more {ss count start head mid n i k j} :
      Derives input (.suffix ss start head mid) i k →
      Derives input (.suffixes ss count start mid n) k j →
      Derives input (.suffixes ss (count + 1) start head n) i j
  | nil {i} : Derives input (.parts [] []) i i
  | cons {item items ps qs i k j} :
      Derives input (.item item ps) i k → Derives input (.parts items qs) k j →
      Derives input (.parts (item :: items) (ps ++ qs)) i j
  | token {t : Terminal} {i} :
      t.accepts (input.lexeme i) = true →
      Derives input (.item (.token t) [.token (input.lexeme i).token]) i (i + 1)
  | presentToken {t : Terminal} {i} :
      t.accepts (input.lexeme i) = true →
      Derives input (.item (.presentToken t) [.optToken (some (input.lexeme i).token)]) i (i + 1)
  | child {p n i j} :
      Derives input (.node p n) i j → Derives input (.item (.child p) [.child n]) i j
  | present {p n i j} :
      Derives input (.node p n) i j →
      Derives input (.item (.present p) [.optChild (some n)]) i j
  | optional {p n i j} :
      Derives input (.node p n) i j →
      Derives input (.item (.optional p) [.optChild (some n)]) i j
  | absent {p i} : Derives input (.item (.optional p) [.optChild none]) i i
  | list {least p ns i j} :
      least ≤ ns.length → Derives input (.list p ns) i j →
      Derives input (.item (.list least p) [.list ns]) i j
  | separated {mode p n rest i k j} :
      Derives input (.node p n) i k → Derives input (.tail p rest) k j →
      Derives input (.item (.separated mode p) [Parser.separatedPart n rest]) i j
  | trailing {p n rest i k j} :
      Derives input (.node p n) i k → Derives input (.tail p rest) k j →
      (Terminal.punct [","]).accepts (input.lexeme j) = true →
      Derives input
        (.item (.separated .trailing p)
          [.separated (n :: rest.map Prod.snd)
            (rest.map Prod.fst ++ [(input.lexeme j).token])]) i (j + 1)
  | none {mode p i} :
      mode = .zeroOrMore ∨ mode = .oneUnlessBare →
      Derives input (.item (.separated mode p) [.separated [] []]) i i
  | single {p n i j} :
      Derives input (.node p n) i j →
      Derives input (.item (.single p) [.separated [n] []]) i j
  | branch {t : Terminal} {p n i j} :
      t.accepts (input.lexeme i) = true → Derives input (.node p n) (i + 1) j →
      Derives input (.item (.branch t p) [.branch (some (input.lexeme i).token) (some n)]) i j
  | empty {part i} : Derives input (.item (.empty part) [part]) i i
  | itemsYes {ahead noted yes no ps i j} :
      Derives input (.parts yes ps) i j →
      Derives input (.item (.choose ahead noted yes no) ps) i j
  | itemsNo {ahead noted yes no ps i j} :
      Derives input (.parts no ps) i j →
      Derives input (.item (.choose ahead noted yes no) ps) i j
  | forbid {closing p i} : Derives input (.item (.forbid closing p) []) i i
  | listNil {p i} : Derives input (.list p []) i i
  | listCons {p n ns i k j} :
      Derives input (.node p n) i k → Derives input (.list p ns) k j →
      Derives input (.list p (n :: ns)) i j
  | tailNil {p i} : Derives input (.tail p []) i i
  | tailCons {p n rest i k j} :
      (Terminal.punct [","]).accepts (input.lexeme i) = true →
      Derives input (.node p n) (i + 1) k → Derives input (.tail p rest) k j →
      Derives input (.tail p (((input.lexeme i).token, n) :: rest)) i j

namespace Parser

variable {μ α β : Type} {input : Input} {T : μ → Prop} {p : Parser μ α} {P : Nat → α → Nat → Prop}

/-! ### Sound parsers -/

/-- A parser is sound for a relation between places and values if every match is in it, and if the
parser keeps the property `T` of tables. -/
def Sound (input : Input) (T : μ → Prop) (p : Parser μ α) (P : Nat → α → Nat → Prop) : Prop :=
  ∀ i s o s', T s.table → p input i s = .ok (o, s') →
    T s'.table ∧ ∀ a j, o = some (a, j) → P i a j

/-- A parser is sound for a phrase if the nodes that it matches are derived from it. -/
abbrev Reads (input : Input) (T : μ → Prop) (p : Parser μ Node) (phrase : Phrase) : Prop :=
  Sound input T p fun i n j => Derives input (.node phrase n) i j

theorem Sound.mono {Q : Nat → α → Nat → Prop} (hp : Sound input T p P)
    (h : ∀ i a j, P i a j → Q i a j) : Sound input T p Q := by
  intro i s o s' hT hrun
  obtain ⟨hT', hP⟩ := hp i s o s' hT hrun
  exact ⟨hT', fun a j ha => h i a j (hP a j ha)⟩

/-- A parser that leaves the table alone is sound for what it matches. -/
theorem sound_of_keeps (h : ∀ i s, ∃ o f, p input i s = .ok (o, ⟨s.table, f⟩) ∧
      ∀ a j, o = some (a, j) → P i a j) :
    Sound input T p P := by
  intro i s o s' hT hrun
  obtain ⟨o', f, hp, hP⟩ := h i s
  rw [hp] at hrun
  simp only [Except.ok.injEq, Prod.mk.injEq] at hrun
  obtain ⟨rfl, rfl⟩ := hrun
  exact ⟨hT, hP⟩

theorem sound_pure {a : α} (h : ∀ i, P i a i) :
    Sound input T (pure a : Parser μ α) P :=
  sound_of_keeps fun i s => ⟨some (a, i), s.failure, rfl, by rintro _ _ ⟨⟩; exact h i⟩

/-- One sound parser after the other. -/
theorem Sound.bind {f : α → Parser μ β}
    {Q : Nat → β → Nat → Prop} (hp : Sound input T p P)
    (hf : ∀ a, Sound input T (f a) fun k b j => ∀ i, P i a k → Q i b j) :
    Sound input T (p >>= f) Q := by
  intro i s o s' hT hrun
  change andThen p f input i s = .ok (o, s') at hrun
  unfold andThen at hrun
  split at hrun
  · cases hrun
  · rename_i progress hp'
    obtain ⟨rfl, rfl⟩ : none = o ∧ progress = s' := by simpa using hrun
    exact ⟨(hp i s _ _ hT hp').1, fun b j hb => by cases hb⟩
  · rename_i a k progress hp'
    obtain ⟨hT', hP⟩ := hp i s _ _ hT hp'
    obtain ⟨hT'', hQ⟩ := hf a k progress o s' hT' hrun
    exact ⟨hT'', fun b j hb => hQ b j hb i (hP a k rfl)⟩

theorem sound_fail : Sound input T (fail : Parser μ α) P :=
  sound_of_keeps fun _ s => ⟨none, s.failure, rfl, by rintro _ _ ⟨⟩⟩

/-- A parser that stops with an error matches nothing. -/
theorem sound_error (h : ∀ i s, ∃ e, p input i s = .error e) : Sound input T p P := by
  intro i s o s' _ hrun
  obtain ⟨e, he⟩ := h i s
  rw [he] at hrun
  cases hrun

theorem Sound.orElse {q : Parser μ α} (hp : Sound input T p P)
    (hq : Sound input T q P) : Sound input T (p.orElse q) P := by
  intro i s o s' hT hrun
  unfold Parser.orElse at hrun
  split at hrun
  · cases hrun
  · rename_i progress hp'
    exact hq i progress o s' (hp i s _ _ hT hp').1 hrun
  · rename_i result progress hp'
    obtain ⟨rfl, rfl⟩ : some result = o ∧ progress = s' := by simpa using hrun
    exact hp i s _ _ hT hp'

theorem sound_here : Sound input T (here : Parser μ Nat) fun i a j => a = i ∧ j = i :=
  sound_of_keeps fun i s => ⟨some (i, i), s.failure, rfl, by rintro _ _ ⟨⟩; exact ⟨rfl, rfl⟩⟩

theorem sound_bound : Sound input T (bound : Parser μ Nat) fun i _ j => j = i :=
  sound_of_keeps fun i s => ⟨some (input.bound, i), s.failure, rfl, by rintro _ _ ⟨⟩; rfl⟩

theorem sound_note (expected : List String) :
    Sound input T (note expected : Parser μ Unit) fun i _ j => j = i :=
  sound_of_keeps fun i s =>
    ⟨some ((), i), s.failure.note i expected, rfl, by rintro _ _ ⟨⟩; rfl⟩

theorem sound_sees (ahead : List Terminal) :
    Sound input T (sees ahead : Parser μ Bool) fun i _ j => j = i :=
  sound_of_keeps fun i s =>
    ⟨some (looksAt input i ahead, i), s.failure, rfl, by rintro _ _ ⟨⟩; rfl⟩

theorem sound_token (t : Terminal) :
    Sound input T (token t : Parser μ Token) fun i a j =>
      t.accepts (input.lexeme i) = true ∧ a = (input.lexeme i).token ∧ j = i + 1 := by
  refine sound_of_keeps fun i s => ?_
  by_cases haccepts : t.accepts (input.lexeme i) = true
  · refine ⟨some ((input.lexeme i).token, i + 1), s.failure, by simp [token, haccepts], ?_⟩
    rintro _ _ ⟨⟩
    exact ⟨haccepts, rfl, rfl⟩
  · exact ⟨none, s.failure.note i t.expected, by simp [token, haccepts], by rintro _ _ ⟨⟩⟩

theorem sound_atEnd :
    Sound input T (atEnd : Parser μ Unit) fun i _ j =>
      (input.lexeme i).isEnd = true ∧ j = i := by
  refine sound_of_keeps fun i s => ?_
  by_cases hend : (input.lexeme i).isEnd = true
  · refine ⟨some ((), i), s.failure, by simp [atEnd, hend], ?_⟩
    rintro _ _ ⟨⟩
    exact ⟨hend, rfl⟩
  · exact ⟨none, s.failure.note i Terminal.endOfInput.expected, by simp [atEnd, hend],
      by rintro _ _ ⟨⟩⟩

theorem sound_node (kind : Kind) (first : Nat) (parts : List Part) :
    Sound input T (node kind first parts : Parser μ Node) fun i n j =>
      n = .mk kind NodeId.detached (input.nodeSpan first i) parts ∧ j = i :=
  sound_of_keeps fun i s =>
    ⟨some (.mk kind NodeId.detached (input.nodeSpan first i) parts, i), s.failure, rfl,
      by rintro _ _ ⟨⟩; exact ⟨rfl, rfl⟩⟩

/-! ### Lists and suffixes -/

theorem Sound.optional (hp : Sound input T p P) :
    Sound input T (optional p) fun i o j =>
      (∃ a, o = some a ∧ P i a j) ∨ (o = none ∧ j = i) := by
  refine Sound.orElse (hp.bind fun a => sound_pure ?_) (sound_pure ?_)
  · intro k i hP
    exact .inl ⟨a, rfl, hP⟩
  · intro i
    exact .inr ⟨rfl, rfl⟩

section Phrases

variable {p : Parser μ Node} {phrase : Phrase} (hp : Reads input T p phrase)

include hp

theorem Sound.repeated (count : Nat) :
    Sound input T (repeated p count) fun i ns j => Derives input (.list phrase ns) i j := by
  induction count with
  | zero => exact sound_pure fun i => .listNil
  | succ count ih =>
    refine Sound.orElse (hp.bind fun n => ih.bind fun ns => sound_pure ?_)
      (sound_pure fun i => .listNil)
    intro j k hns i hn
    exact .listCons hn hns

theorem Sound.many :
    Sound input T (many p) fun i ns j => Derives input (.list phrase ns) i j := by
  refine sound_bound.bind fun count => (hp.repeated count).mono ?_
  rintro k ns j hns i rfl
  exact hns

theorem Sound.afterCommas (count : Nat) :
    Sound input T (Parser.repeated (afterComma p) count) fun i rest j =>
      Derives input (.tail phrase rest) i j := by
  induction count with
  | zero => exact sound_pure fun i => .tailNil
  | succ count ih =>
    have hfirst : Sound input T (afterComma p) fun i a j =>
        (Terminal.punct [","]).accepts (input.lexeme i) = true ∧
          a.1 = (input.lexeme i).token ∧ Derives input (.node phrase a.2) (i + 1) j := by
      refine (sound_token _).bind fun separator => hp.bind fun n => sound_pure ?_
      rintro j k hn i ⟨haccepts, rfl, rfl⟩
      exact ⟨haccepts, rfl, hn⟩
    refine Sound.orElse (hfirst.bind fun a => ih.bind fun rest => sound_pure ?_)
      (sound_pure fun i => .tailNil)
    rintro j k hrest i ⟨haccepts, hseparator, hn⟩
    obtain ⟨separator, n⟩ := a
    simp only at hseparator hn
    subst hseparator
    exact .tailCons haccepts hn hrest

theorem Sound.separated :
    Sound input T (separated p) fun i a j =>
      ∃ k, Derives input (.node phrase a.1) i k ∧ Derives input (.tail phrase a.2) k j := by
  refine hp.bind fun n => Sound.bind (P := fun i rest j => Derives input (.tail phrase rest) i j)
    ?_ fun rest => sound_pure ?_
  · refine sound_bound.bind fun count => (hp.afterCommas count).mono ?_
    rintro k rest j hrest i rfl
    exact hrest
  · intro j k hrest i hn
    exact ⟨k, hn, hrest⟩

omit hp in
theorem Sound.extended {step : Node → Parser μ Node} {ss : List Suffix} {start : Nat}
    (hstep : ∀ head, Sound input T (step head) fun i n j =>
      Derives input (.suffix ss start head n) i j) (count : Nat) (head : Node) :
    Sound input T (extended step count head) fun i n j =>
      Derives input (.suffixes ss count start head n) i j := by
  induction count generalizing head with
  | zero => exact sound_pure fun i => .stop
  | succ count ih =>
    refine Sound.orElse ((hstep head).bind fun mid => (ih mid).mono ?_)
      (sound_pure fun i => .stop)
    intro k n j hn i hmid
    exact .more hmid hn

/-- A separated list in any mode is derived as an item of that mode. -/
theorem Sound.listing (mode : Listing) (before : Option Part) :
    Sound input T (listing mode before p) fun i part j =>
      Derives input (.item (.separated mode phrase) [part]) i j := by
  have hone : ∀ mode, Sound input T (oneOrMore p) fun i part j =>
      Derives input (.item (.separated mode phrase) [part]) i j := by
    intro mode
    refine hp.separated.bind fun a => sound_pure ?_
    rintro j i ⟨k, hn, hrest⟩
    exact .separated hn hrest
  have hzero : ∀ mode, mode = .zeroOrMore ∨ mode = .oneUnlessBare →
      Sound input T (zeroOrMore p) fun i part j =>
        Derives input (.item (.separated mode phrase) [part]) i j := by
    intro mode hmode
    exact (hone mode).orElse (sound_pure fun i => .none hmode)
  cases mode with
  | oneOrMore => exact hone _
  | zeroOrMore => exact hzero _ (.inl rfl)
  | oneUnlessBare =>
    simp only [Parser.listing]
    split
    · exact hzero _ (.inr rfl)
    · exact hone _
  | trailing =>
    refine hp.separated.bind fun a => (sound_token _).optional.bind fun last => sound_pure ?_
    rintro j k hlast i ⟨l, hn, hrest⟩
    rcases hlast with ⟨t, rfl, haccepts, rfl, rfl⟩ | ⟨rfl, rfl⟩
    · exact .trailing hn hrest haccepts
    · have hpart : Derives input
          (.item (.separated .trailing phrase) [separatedPart a.1 a.2]) i j :=
        .separated hn hrest
      simpa [separatedPart] using hpart

end Phrases

end Parser

/-! ### Reading is sound -/

section Reading

variable {μ : Type} {input : Input} {T : μ → Prop} {call : Rule → Parser μ Node}
  (hcall : ∀ r, Reads input T (call r) (.rule r))

include hcall

section Nested

set_option linter.unusedSectionVars false

variable {nested : Parser μ Node} (hnested : Reads input T nested .initializer)

include hnested

mutual

/-- What reading a phrase yields is derived from it, if this holds of rules and initializers. -/
theorem Phrase.read_sound : (p : Phrase) → Reads input T (p.read call nested) p
  | .node kind items => by
    rw [Phrase.read]
    refine sound_here.bind fun first =>
      (Item.readAll_sound items none).bind fun ps =>
        (sound_node kind first ps).mono ?_
    rintro j n _ ⟨rfl, rfl⟩ k hps i ⟨rfl, rfl⟩
    exact .node hps
  | .rule r => by
    rw [Phrase.read]
    exact hcall r
  | .initializer => by
    rw [Phrase.read]
    exact hnested
  | .orElse first second => by
    rw [Phrase.read]
    exact (first.read_sound.mono fun _ _ _ => .first).orElse
      (second.read_sound.mono fun _ _ _ => .second)
  | .choose ahead noted yes no => by
    rw [Phrase.read]
    refine (sound_sees ahead).bind fun seen => ?_
    cases seen with
    | true =>
      refine yes.read_sound.mono ?_
      rintro k n j hn i rfl
      exact .yes hn
    | false =>
      refine (sound_note noted).bind fun _ => no.read_sound.mono ?_
      rintro l n j hn k rfl i rfl
      exact .no hn
  | .refuse expected => by
    rw [Phrase.read]
    exact (sound_note expected).bind fun _ => sound_fail
  | .suffixed first repeated suffixes => by
    rw [Phrase.read]
    refine sound_here.bind fun start => first.read_sound.bind fun head => ?_
    have hextended := Sound.extended (Suffix.readAny_sound suffixes start)
    cases repeated with
    | true =>
      refine sound_bound.bind fun count => (hextended count head).mono ?_
      rintro _ n j hn k rfl l hhead i ⟨rfl, rfl⟩
      exact .suffixed (by simp) hhead hn
    | false =>
      refine (hextended 1 head).mono ?_
      rintro k n j hn l hhead i ⟨rfl, rfl⟩
      exact .suffixed (fun _ => Nat.le_refl 1) hhead hn
  | .joined kind item => by
    rw [Phrase.read]
    refine sound_here.bind fun start =>
      item.read_sound.separated.bind fun a => ?_
    obtain ⟨n, rest⟩ := a
    cases rest with
    | nil =>
      refine sound_pure ?_
      rintro j k ⟨l, hn, hrest⟩ i ⟨rfl, rfl⟩
      cases hrest
      exact .alone hn
    | cons r rest =>
      refine (sound_node kind start _).mono ?_
      rintro j m _ ⟨rfl, rfl⟩ k ⟨l, hn, hrest⟩ i ⟨rfl, rfl⟩
      exact .joined (List.cons_ne_nil r rest) hn hrest

theorem Suffix.readAny_sound : (ss : List Suffix) → (start : Nat) → (head : Node) →
      Sound input T (Suffix.readAny call nested ss start head) fun i n j =>
        Derives input (.suffix ss start head n) i j
  | [], start, head => by
    rw [Suffix.readAny]
    exact sound_fail
  | .mk kind items follow :: others, start, head => by
    rw [Suffix.readAny]
    refine Sound.orElse ((Item.readAll_sound items none).bind fun ps =>
      (sound_node kind start _).bind fun node => ?_)
      ((Suffix.readAny_sound others start head).mono fun _ _ _ => .other)
    refine Sound.orElse
      ((Suffix.readAny_sound follow start node).mono ?_) (sound_pure ?_)
    · rintro _ n j hn k ⟨rfl, rfl⟩ i hps
      exact .follow hps hn
    · rintro _ j ⟨rfl, rfl⟩ i hps
      exact .suffix hps

theorem Item.readAll_sound : (items : List Item) → (before : Option Part) →
      Sound input T (Item.readAll call nested before items) fun i ps j =>
        Derives input (.parts items ps) i j
  | [], before => by
    rw [Item.readAll]
    exact sound_pure fun i => .nil
  | item :: items, before => by
    rw [Item.readAll]
    refine (Item.read_sound item before).bind fun ps =>
      (Item.readAll_sound items _).bind fun qs => sound_pure ?_
    intro j k hqs i hps
    exact .cons hps hqs

/-- What an item reads, it derives: one case for each form of items. -/
theorem Item.read_sound : (item : Item) → (before : Option Part) →
      Sound input T (Item.read call nested before item) fun i ps j =>
        Derives input (.item item ps) i j
  | .token t, before => by
    rw [Item.read]
    refine (sound_token t).bind fun a => sound_pure ?_
    rintro _ i ⟨haccepts, rfl, rfl⟩
    exact .token haccepts
  | .presentToken t, before => by
    rw [Item.read]
    refine (sound_token t).bind fun a => sound_pure ?_
    rintro _ i ⟨haccepts, rfl, rfl⟩
    exact .presentToken haccepts
  | .child p, before => by
    rw [Item.read]
    exact p.read_sound.bind fun n => sound_pure fun _ _ => .child
  | .present p, before => by
    rw [Item.read]
    exact p.read_sound.bind fun n => sound_pure fun _ _ => .present
  | .optional p, before => by
    rw [Item.read]
    refine p.read_sound.optional.bind fun o => sound_pure ?_
    rintro j i (⟨n, rfl, hn⟩ | ⟨rfl, rfl⟩)
    · exact .optional hn
    · exact .absent
  | .list least p, before => by
    rw [Item.read]
    refine p.read_sound.many.bind fun ns => ?_
    split
    · exact sound_fail
    · rename_i hleast
      exact sound_pure fun _ _ => .list (Nat.le_of_not_lt hleast)
  | .separated mode p, before => by
    rw [Item.read]
    exact (p.read_sound.listing mode before).bind fun part =>
      sound_pure fun _ _ => id
  | .single p, before => by
    rw [Item.read]
    exact p.read_sound.bind fun n => sound_pure fun _ _ => .single
  | .branch word p, before => by
    rw [Item.read]
    refine (sound_token word).bind fun a =>
      p.read_sound.bind fun n => sound_pure ?_
    rintro j _ hn i ⟨haccepts, rfl, rfl⟩
    exact .branch haccepts hn
  | .empty part, before => by
    rw [Item.read]
    exact sound_pure fun _ => .empty
  | .choose ahead noted yes no, before => by
    rw [Item.read]
    refine (sound_sees ahead).bind fun seen => ?_
    cases seen with
    | true =>
      refine (Item.readAll_sound yes before).mono ?_
      rintro k ps j hps i rfl
      exact .itemsYes hps
    | false =>
      refine (sound_note noted).bind fun _ =>
        (Item.readAll_sound no before).mono ?_
      rintro l ps j hps k rfl i rfl
      exact .itemsNo hps
  | .forbid closing p, before => by
    rw [Item.read]
    refine (sound_sees [closing]).bind fun seen => ?_
    cases seen with
    | true =>
      refine sound_pure ?_
      rintro _ i rfl
      exact .forbid
    | false =>
      refine sound_here.bind fun first =>
        p.read_sound.optional.bind fun o => ?_
      cases o with
      | none =>
        refine sound_pure ?_
        rintro l k (⟨n, ho, -⟩ | ⟨-, rfl⟩) j ⟨-, rfl⟩ i rfl
        · cases ho
        · exact .forbid
      | some n => exact sound_error fun _ _ => ⟨_, rfl⟩

end

end Nested

/-- Initializers are sound if rules are. -/
theorem initializerParser_sound : Reads input T (initializerParser call) .initializer := by
  have hread : ∀ depth, Reads input T (readInitializer call depth) .initializer := by
    intro depth
    induction depth with
    | zero => exact sound_fail
    | succ depth ih =>
      exact (Grammar.initializer.read_sound hcall ih).mono fun _ _ _ => .initializer
  refine sound_bound.bind fun depth => (hread depth).mono ?_
  rintro k n j hn i rfl
  exact hn

/-- Phrases are sound if rules are. -/
theorem Phrase.parser_sound (p : Phrase) : Reads input T (p.parser call) p :=
  p.read_sound hcall (initializerParser_sound hcall)

omit hcall in
/-- Rules are sound at every depth if requests keep soundness. -/
theorem Rule.readWith_sound {request : Rule → Parser μ Node → Parser μ Node}
    (hrequest : ∀ r p, Reads input T p (.rule r) → Reads input T (request r p) (.rule r))
    (depth : Nat) (r : Rule) : Reads input T (Rule.readWith request depth r) (.rule r) := by
  induction depth generalizing r with
  | zero => exact hrequest r _ (sound_error fun _ _ => ⟨_, rfl⟩)
  | succ depth ih =>
    exact hrequest r _ ((Phrase.parser_sound ih (Grammar.production r)).mono fun _ _ _ => .rule)

end Reading

/-! ### Rules that remember -/

/-- What comes of running a parser that remembers. -/
abbrev Parser.Result (α : Type) : Type :=
  Except Error (Option (α × Nat) × Progress Memo)

namespace Memo

theorem lookup_filter_ne {r r' : Rule} (es : List (Rule × Memory)) (h : r' ≠ r) :
    (es.filter fun e => !decide (e.1 = r)).lookup r' = es.lookup r' := by
  induction es with
  | nil => rfl
  | cons e es ih =>
    obtain ⟨k, m⟩ := e
    by_cases hk : k = r
    · subst hk
      simp [List.lookup_cons, ih, beq_eq_false_iff_ne.mpr h]
    · by_cases hr : r' = k
      · subst hr
        simp [h]
      · simp [List.lookup_cons, hk, ih, beq_eq_false_iff_ne.mpr hr]

/-- Only what is put in changes. -/
theorem find?_insert (m : Memo) (place place' : Nat) (r r' : Rule) (memory : Memory) :
    (m.insert place r memory).find? place' r' =
      if place = place' ∧ r = r' then some memory else m.find? place' r' := by
  unfold find? insert
  by_cases hplace : place = place'
  · subst hplace
    by_cases hr : r = r'
    · subst hr
      simp
    · have hne : r' ≠ r := fun h => hr h.symm
      simp [List.lookup_cons, hr, beq_eq_false_iff_ne.mpr hne, lookup_filter_ne _ hne]
  · have hcompare : compare place place' ≠ .eq := by simpa using hplace
    simp [Std.TreeMap.getElem?_insert, hplace, hcompare]

theorem find?_empty (place : Nat) (r : Rule) : empty.find? place r = none := by
  simp [find?, empty]

/-- Every node in the table is derived where it was read. -/
def Derived (input : Input) (m : Memo) : Prop :=
  ∀ place r n next, m.find? place r = some (.kept n next) →
    Derives input (.node (.rule r) n) place next

theorem derived_empty (input : Input) : Derived input empty := by
  intro place r n next h
  rw [find?_empty] at h
  cases h

theorem memoryOf_eq_kept {again : Bool} {o : Option (Node × Nat)} {n : Node} {next : Nat}
    (h : memoryOf again o = .kept n next) : o = some (n, next) := by
  unfold memoryOf at h
  split at h
  · cases h
  · split at h
    · cases h
      rfl
    · cases h

/-- What came of reading the rule at the place, once that is in the table. -/
def remembered (i : Nat) (r : Rule) (again : Bool) : Parser.Result Node → Parser.Result Node
  | .error e => .error e
  | .ok (outcome, after) =>
    .ok (outcome, { after with table := after.table.insert i r (memoryOf again outcome) })

/-- A request is answered by the table, or else its outcome is remembered. -/
theorem request_cases (r : Rule) (p : Parser Memo Node) (input : Input) (i : Nat)
    (s : Progress Memo) :
    s.table.find? i r = some .failed ∧ request r p input i s = .ok (none, s) ∨
      (∃ n next, s.table.find? i r = some (.kept n next) ∧
        request r p input i s = .ok (some (n, next), s)) ∨
      ∃ again, s.table.find? i r = (if again then some .matched else none) ∧
        request r p input i s = remembered i r again (p input i s) := by
  unfold request
  cases hfind : s.table.find? i r with
  | none => exact .inr (.inr ⟨false, rfl, rfl⟩)
  | some memory =>
    cases memory with
    | failed => exact .inl ⟨rfl, rfl⟩
    | matched => exact .inr (.inr ⟨true, rfl, rfl⟩)
    | kept n next => exact .inr (.inl ⟨n, next, rfl, rfl⟩)

/-- A request gives only derived nodes and puts only such nodes into the table. -/
theorem request_sound {input : Input} (r : Rule) (p : Parser Memo Node)
    (hp : Reads input (Derived input) p (.rule r)) :
    Reads input (Derived input) (request r p) (.rule r) := by
  intro i s o s' hT hrun
  rcases request_cases r p input i s with
    ⟨-, heq⟩ | ⟨n, next, hknown, heq⟩ | ⟨again, -, heq⟩ <;> rw [heq] at hrun
  · obtain ⟨rfl, rfl⟩ : none = o ∧ s = s' := by simpa using hrun
    exact ⟨hT, by rintro _ _ ⟨⟩⟩
  · obtain ⟨rfl, rfl⟩ : some (n, next) = o ∧ s = s' := by simpa using hrun
    refine ⟨hT, ?_⟩
    rintro _ _ ⟨⟩
    exact hT i r n next hknown
  · rcases hp' : p input i s with e | ⟨outcome, after⟩ <;> rw [hp'] at hrun
    · cases hrun
    · obtain ⟨hT', hP⟩ := hp i s _ _ hT hp'
      simp only [remembered, Except.ok.injEq, Prod.mk.injEq] at hrun
      obtain ⟨rfl, rfl⟩ := hrun
      refine ⟨?_, hP⟩
      intro place r' n next hfind
      rw [find?_insert] at hfind
      split at hfind
      · rename_i hsame
        obtain ⟨rfl, rfl⟩ := hsame
        exact hP n next (memoryOf_eq_kept (Option.some.inj hfind))
      · exact hT' place r' n next hfind

end Memo

/-- What a rule that remembers yields is derived from it. -/
theorem Rule.read_sound {input : Input} (depth : Nat) (r : Rule) :
    Reads input (Memo.Derived input) (Rule.read depth r) (.rule r) :=
  Rule.readWith_sound Memo.request_sound depth r

/-! ### Whole sources -/

/-- The phrase that a start reads once or again and again. -/
def Start.phrase : Start → Phrase
  | .translationUnit | .externalDeclaration => Grammar.externalDeclaration
  | .statement => .rule .statement
  | .expression => .rule .expression

section Start

variable {μ : Type} {input : Input} {T : μ → Prop} {call : Rule → Parser μ Node}

theorem Start.nodes_sound (hcall : ∀ r, Reads input T (call r) (.rule r)) (start : Start) :
    Sound input T (start.nodes call) fun i ns j =>
      Derives input (.list start.phrase ns) i j ∧
        (start ≠ .translationUnit → ∃ n, ns = [n]) := by
  have hone : ∀ {p : Parser μ Node} {phrase : Phrase} {P : Prop}, Reads input T p phrase →
      Sound input T (do return [← p]) fun i ns j =>
        Derives input (.list phrase ns) i j ∧ (P → ∃ n, ns = [n]) := by
    intro p phrase P hp
    exact hp.bind fun n => sound_pure fun _ _ hn => ⟨.listCons hn .listNil, fun _ => ⟨n, rfl⟩⟩
  cases start with
  | translationUnit =>
    exact (Phrase.parser_sound hcall Grammar.externalDeclaration).many.mono
      fun _ _ _ hns => ⟨hns, fun h => absurd rfl h⟩
  | externalDeclaration => exact hone (Phrase.parser_sound hcall Grammar.externalDeclaration)
  | statement => exact hone (hcall .statement)
  | expression => exact hone (hcall .expression)

theorem Start.root_sound (hcall : ∀ r, Reads input T (call r) (.rule r)) (start : Start)
    (leading : String) :
    Sound input T (start.root call leading) fun i n j =>
      ∃ ns, n = .mk .program NodeId.detached (input.nodeSpan 0 j) [.text leading, .list ns] ∧
        Derives input (.list start.phrase ns) i j ∧ (input.lexeme j).isEnd = true ∧
        (start ≠ .translationUnit → ∃ n, ns = [n]) := by
  refine (start.nodes_sound hcall).bind fun ns => sound_atEnd.bind fun _ =>
    (sound_node .program 0 _).mono ?_
  rintro _ n j ⟨rfl, rfl⟩ k ⟨hend, rfl⟩ i ⟨hns, hone⟩
  exact ⟨ns, rfl, hns, hend, hone⟩

end Start

/-- The tree of a source has the nodes below its root derived one after the other, from the first
lexeme up to the end. What is not read as a whole shader is one node. -/
theorem readTree_sound {start : Start} {input : Input} {source : Option String} {root : Node}
    (h : readTree start input source = .ok root) :
    ∃ ns j, root = .mk .program NodeId.detached (input.nodeSpan 0 j)
        [.text input.lexemes.leading, .list ns] ∧
      Derives input (.list start.phrase ns) 0 j ∧ (input.lexeme j).isEnd = true ∧
      (start ≠ .translationUnit → ∃ n, ns = [n]) := by
  unfold readTree Parser.run at h
  split at h
  · cases h
  · rename_i n j progress hrun
    obtain rfl : n = root := Except.ok.inj h
    have hsound := start.root_sound (fun r => Rule.read_sound Rule.maxDepth r)
      input.lexemes.leading 0 _ _ _ (Memo.derived_empty input) hrun
    obtain ⟨ns, hn, hns, hend⟩ := hsound.2 n j rfl
    exact ⟨ns, j, hn, hns, hend⟩
  · cases h

end ShaderSource
