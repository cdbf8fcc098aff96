import ShaderSource.Proofs.Yield

/-!
# Two readings side by side

A reading depends on the lexemes that it looks at, and it looks at none beyond the furthest place
at which a lexeme was refused or the place that it has come to. So a second input with the same
lexemes up to there, be it longer or shorter, has the same outcome.

An `Alignment` says how two inputs are laid side by side. What one reading does by itself, how far
it looks above all, is said of its outcomes by `Alignment.Advances`. That a second reading does the
same is said by `Alignment.Follows`, and it has to be true only if the inputs agree as far as the
first reading has looked, `Alignment.Covers`. Both together are `Alignment.Tracks`, and all ways to
put parsers together respect it.

Three numbers tell how far a parser looks. It takes `take` lexemes at least where it matches. It
has looked at all lexemes before `reach` when it is done, and this shows in its outcome. And it may
have looked at `open` lexemes behind the place that it has come to which its outcome does not
show; what is read next has to look at them again.

## Main results

* `Alignment.Tracks.bind`, `Alignment.Tracks.orElse`: the two ways to put parsers together.
* `Alignment.Tracks.many`, `Alignment.Tracks.extended`: loops, whose bounds differ in the two
  readings.
* `Alignment.Tracks.request`: rules that remember.
-/

namespace ShaderSource

open List Memo Node Option ShaderSource.Parser ShaderSource.Part

variable {expected : List String} {n x i take take' reach' more more' n' : Nat} {s : Progress Memo}

/-! ### Errors without places -/

/-- An error with the places in it dropped. -/
def Error.unplaced : Error → Error
  | .unexpected e => .unexpected { e with span := default }
  | .invalidSwitchBody _ => .invalidSwitchBody default
  | .nestingTooDeep _ => .nestingTooDeep default
  | e => e

theorem Error.unplaced_nestingTooDeep (s s' : Span) :
    (nestingTooDeep s).unplaced = (nestingTooDeep s').unplaced :=
  rfl

theorem Error.unplaced_invalidSwitchBody (s s' : Span) :
    (invalidSwitchBody s).unplaced = (invalidSwitchBody s').unplaced :=
  rfl

/-- The errors that end a reading at once. -/
def Error.halts : Error → Bool
  | .invalidSwitchBody _ | .nestingTooDeep _ => true
  | _ => false

/-! ### Furthest failures -/

theorem Failure.place_le_note (f : Failure) (place : Nat) (expected : List String) :
    f.place ≤ (f.note place expected).place := by
  unfold note
  split
  · exact Nat.le_refl _
  · split <;> simp_all

theorem Failure.le_place_note (f : Failure) (place : Nat) (h : expected ≠ []) :
    place ≤ (f.note place expected).place := by
  unfold note
  split
  · rename_i hcond
    rcases Bool.or_eq_true_iff.mp hcond with hempty | hlt
    · exact absurd (List.isEmpty_iff.mp hempty) h
    · exact Nat.le_of_lt (of_decide_eq_true hlt)
  · split <;> exact Nat.le_refl _

/-! ### Alignments -/

/-- An input as cutting a source into lexemes yields it: the end stands behind the body and nowhere
else, and `void` is the name of a type. -/
structure Input.Regular (input : Input) : Prop where
  isEnd_iff : ∀ i, (input.lexeme i).isEnd = true ↔ input.bound ≤ i + 1
  void : ∀ i, (Terminal.keyword ["void"]).accepts (input.lexeme i) = true →
    (input.lexeme i).kind = .keyword .type

/-- Two inputs side by side. -/
structure Alignment where
  first : Input
  second : Input
  /-- Where the lexemes are the same to the grammar. -/
  Agrees : Nat → Prop
  /-- What is compared of tokens. -/
  tidy : Token → Token
  /-- How the furthest failures compare. -/
  Failures : Failure → Failure → Prop
  /-- How the errors that end a reading at once compare. -/
  Errors : Error → Error → Prop
  failures_initial : Failures Failure.initial Failure.initial
  first_regular : first.Regular
  second_regular : second.Regular
  accepts_eq : ∀ x, Agrees x → ∀ t : Terminal,
    t.accepts (second.lexeme x) = t.accepts (first.lexeme x)
  tidy_eq : ∀ x, Agrees x →
    tidy (first.lexeme x).token = tidy (second.lexeme x).token
  note : ∀ f f' x expected, Failures f f' →
    Failures (f.note x expected) (f'.note x expected)
  tooDeep : ∀ x, Errors (.nestingTooDeep (first.lexeme x).span)
    (.nestingTooDeep (second.lexeme x).span)
  forbidden : ∀ x, Errors (.invalidSwitchBody (first.lexeme x).span)
    (.invalidSwitchBody (second.lexeme x).span)

/-- The rules that look behind the name of a built-in type that they begin with. -/
def Rule.leads : Rule → Bool
  | .typeSpecifier | .assignment | .ternary | .binary _ | .unary | .postfixExpr
  | .functionCall => true
  | _ => false

/-- The place behind what is looked at from a place on: one lexeme, but two where a built-in type
is looked behind. -/
def Input.reach (input : Input) (leads : Bool) (i : Nat) : Nat :=
  if leads && (input.lexeme i).kind == .keyword .type then i + 2 else i + 1

theorem Input.lt_reach (input : Input) (leads : Bool) (i : Nat) : i + 1 ≤ input.reach leads i := by
  unfold reach
  split <;> omega

@[simp] theorem Input.reach_false (input : Input) (i : Nat) : input.reach false i = i + 1 := rfl

/-- What is remembered, with tokens tidied. -/
def Memory.tidied (tidy : Token → Token) : Memory → Memory
  | .failed => .failed
  | .matched => .matched
  | .kept n next => .kept (n.retoken tidy) next

/-- How many nodes a list needs. -/
def Listing.least : Listing → Nat
  | .oneOrMore | .trailing => 1
  | .zeroOrMore | .oneUnlessBare => 0

/-! ### Types that stand alone -/

/-- Whether a type may stand alone does not depend on its tokens. -/
theorem Node.standsAlone_retoken (f : Token → Token) (n : Node) :
    (n.retoken f).standsAlone = n.standsAlone := by
  obtain ⟨k, i, s, ps⟩ := n
  rw [retoken_mk]
  by_cases hk : k = .fullySpecifiedType
  · subst hk
    rcases ps with _ | ⟨p, _ | ⟨q, _ | ⟨r, rs⟩⟩⟩
    · rfl
    · simp [Node.standsAlone]
    · cases p with
      | list ns =>
        cases q with
        | child c =>
          obtain ⟨k', i', s', qs⟩ := c
          simp only [map_cons, map_nil, retoken_list, retoken_child,
            retoken_mk]
          by_cases hk' : k' = .typeSpecifier
          · subst hk'
            rcases qs with _ | ⟨a, as⟩
            · rfl
            · cases a <;> simp [Node.standsAlone]
          · simp [Node.standsAlone, hk']
        | _ => simp [Node.standsAlone]
      | _ => simp [Node.standsAlone]
    · simp [Node.standsAlone]
  · simp [Node.standsAlone, hk]

theorem Part.standsAlone_retoken (f : Token → Token) (p : Part) :
    (p.retoken f).standsAlone = p.standsAlone := by
  cases p with
  | child n => rw [retoken_child, Part.standsAlone, Part.standsAlone, n.standsAlone_retoken]
  | _ => simp [Part.standsAlone]

theorem Part.any_standsAlone {f : Token → Token} {before before' : Option Part}
    (h : before.map (Part.retoken f) = before'.map (Part.retoken f)) :
    before.any Part.standsAlone = before'.any Part.standsAlone := by
  cases before <;> cases before'
  case none.none => rfl
  case some.some p q =>
    have hpq : p.retoken f = q.retoken f := some.inj h
    rw [any_some, any_some, ← p.standsAlone_retoken f, ← q.standsAlone_retoken f, hpq]
  all_goals cases h

/-! ### Parsers and their outcomes -/

namespace Parser

variable {μ α β γ : Type}

theorem bind_assoc (p : Parser μ α) (f : α → Parser μ β) (g : β → Parser μ γ) :
    p >>= f >>= g = p >>= fun a => f a >>= g := by
  funext input i s
  change andThen (andThen p f) g input i s = andThen p (fun a => andThen (f a) g) input i s
  simp only [andThen]
  rcases p input i s with e | ⟨_ | ⟨a, j⟩, t⟩ <;> rfl

theorem orElse_fail (p : Parser μ α) : p.orElse fail = p := by
  funext input i s
  simp only [orElse]
  rcases p input i s with e | ⟨_ | ⟨a, j⟩, t⟩ <;> rfl

theorem fail_orElse (p : Parser μ α) : fail.orElse p = p := rfl

/-- A value that is taken where a parser fails makes no difference if nothing comes of it. -/
theorem orElse_succeed_bind (p : Parser μ α) (a : α) (f : α → Parser μ β) (h : f a = fail) :
    p.orElse (succeed a) >>= f = p >>= f := by
  funext input i s
  change andThen (orElse p (succeed a)) f input i s = andThen p f input i s
  simp only [andThen, orElse, succeed]
  rcases p input i s with e | ⟨_ | ⟨b, j⟩, t⟩
  · rfl
  · change f a input i t = .ok (none, t)
    rw [h]
    rfl
  · rfl

end Parser

namespace Alignment

variable (S : Alignment) {α β γ δ : Type}

/-! ### What the first reading does -/

/-- What the table of the first reading knows shows in its furthest failure: a rule that failed has
looked no further than that, and so has one that matched. -/
structure Footing (s : Progress Memo) : Prop where
  failed : ∀ i r, s.table.find? i r = some .failed →
    S.first.reach r.leads i ≤ s.failure.place + 1
  kept : ∀ i r n next, s.table.find? i r = some (.kept n next) →
    i + 1 ≤ next ∧ next < S.first.bound ∧
      S.first.reach r.leads i ≤ max next (s.failure.place + 1)

/-- What the first reading does: from the place `i` and the state `s` on it takes `take` lexemes
where it matches, and it looks at all lexemes before `reach`. -/
inductive Advances (s : Progress Memo) (i take reach : Nat) : Parser.Result α → Prop
  | error {e} (h : e.halts = true) : Advances s i take reach (.error e)
  | failed {t} (hmono : s.failure.place ≤ t.failure.place) (hfooting : S.Footing t)
      (hplace : i ≤ t.failure.place) (hreach : reach ≤ t.failure.place + 1) :
      Advances s i take reach (.ok (none, t))
  | matched {a j t} (hmono : s.failure.place ≤ t.failure.place) (hfooting : S.Footing t)
      (htake : i + take ≤ j) (hbound : j < S.first.bound)
      (hreach : reach ≤ max j (t.failure.place + 1)) :
      Advances s i take reach (.ok (some (a, j), t))

/-! ### What the second reading does -/

/-- The inputs agree before the given place of the first one. -/
def Covered (n : Nat) : Prop :=
  ∀ x, x < n → S.Agrees x

/-- The inputs agree as far as the first reading has looked, `more` lexemes behind its place
included. After an error nothing is known about that, and they have to agree everywhere. -/
def Covers (more : Nat) : Parser.Result α → Prop
  | .error _ => ∀ n, S.Covered n
  | .ok (none, t) => S.Covered (t.failure.place + 1)
  | .ok (some (_, j), t) => S.Covered (max (j + more) (t.failure.place + 1))

/-- The tables know the same, and the furthest failures compare. -/
structure Matches (s s' : Progress Memo) : Prop where
  table : ∀ x r, (s.table.find? x r).map (Memory.tidied S.tidy) =
    (s'.table.find? x r).map (Memory.tidied S.tidy)
  failure : S.Failures s.failure s'.failure

/-- The outcome of the second reading is that of the first: the same value as far as `view` shows,
at the place that stands for the other, and the same state. -/
inductive Follows (view : α → γ) : Parser.Result α → Parser.Result α → Prop
  | error {e e'} (h : S.Errors e e') : Follows view (.error e) (.error e')
  | failed {t t'} (h : S.Matches t t') : Follows view (.ok (none, t)) (.ok (none, t'))
  | matched {a b y t t'} (hview : view a = view b) (h : S.Matches t t') :
      Follows view (.ok (some (a, y), t)) (.ok (some (b, y), t'))

/-- The second parser does from the place `x` on what the first one does from the place that this
stands for. -/
structure Tracks (x take reach more : Nat) (view : α → γ) (p q : Parser Memo α) : Prop where
  advances : ∀ s, x < S.first.bound → S.Footing s →
    S.Advances s x take reach (p S.first x s)
  follows : ∀ s s', x < S.first.bound → S.Footing s → x < S.second.bound → S.Matches s s' →
    S.Covers more (p S.first x s) →
      S.Follows view (p S.first x s) (q S.second x s')

/-- The parsers read nodes side by side, and look behind the name of a type if `leads` says so. -/
abbrev TracksNode (x : Nat) (leads : Bool) (p q : Parser Memo Node) : Prop :=
  S.Tracks x 1 (S.first.reach leads x) 0 (Node.retoken S.tidy) p q

variable {S} {t : Progress Memo} {reach : Nat} {view : α → γ} {p q : Parser Memo α} {view' : β → δ}

/-! ### Weaker bounds -/

theorem Covered.mono {m : Nat} (h : S.Covered n) (hmn : m ≤ n) : S.Covered m :=
  fun x hx => h x (Nat.lt_of_lt_of_le hx hmn)

theorem Covered.agrees (h : S.Covered n) (hx : x < n) : S.Agrees x :=
  h x hx

theorem Covers.mono {m : Nat} {o : Parser.Result α} (h : S.Covers n o) (hmn : m ≤ n) :
    S.Covers m o := by
  rcases o with e | ⟨_ | ⟨a, j⟩, t⟩
  · exact h
  · exact h
  · exact Covered.mono h (by omega)

/-- Inputs that agree everywhere agree as far as anything looks. -/
theorem Covers.of_agrees (h : ∀ x, S.Agrees x) (more : Nat) (o : Parser.Result α) :
    S.Covers more o := by
  rcases o with e | ⟨_ | ⟨a, j⟩, t⟩
  · exact fun _ x _ => h x
  · exact fun x _ => h x
  · exact fun x _ => h x

theorem Advances.mono {j : Nat} {o : Parser.Result α}
    (h : S.Advances t j take' reach' o) (hmono : s.failure.place ≤ t.failure.place) (hij : i ≤ j)
    (htake : i + take ≤ j + take') (hreach : reach ≤ max reach' (max j (t.failure.place + 1))) :
    S.Advances s i take reach o := by
  cases h with
  | error he => exact .error he
  | failed hmono' hfooting hplace hreach' => exact .failed (by omega) hfooting (by omega) (by omega)
  | matched hmono' hfooting htake' hbound hreach' =>
    exact .matched (by omega) hfooting (by omega) hbound (by omega)

/-- The inputs agree as far as a reading has looked before it came to where it is now. -/
theorem Advances.covered {j : Nat} {o : Parser.Result α}
    (h : S.Advances t j take reach o) (hcovers : S.Covers more o)
    (hn : n ≤ max reach (max j (t.failure.place + 1))) : S.Covered n := by
  cases h with
  | error => exact hcovers n
  | failed | matched => exact Covered.mono hcovers (by omega)

theorem Tracks.mono (h : S.Tracks x take' reach' more' view p q) (htake : take ≤ take')
    (hreach : reach ≤ reach') (hmore : more' ≤ more) : S.Tracks x take reach more view p q where
  advances s hx hs :=
    (h.advances s hx hs).mono (Nat.le_refl _) (Nat.le_refl _) (by omega) (by omega)
  follows s s' hx hs hx' hm hcovers := h.follows s s' hx hs hx' hm (hcovers.mono hmore)

theorem Tracks.shallow {leads : Bool}
    (h : S.Tracks x take (S.first.reach leads x) more view p q) :
    S.Tracks x take (x + 1) more view p q :=
  h.mono (Nat.le_refl _) (S.first.lt_reach _ _) (Nat.le_refl _)

/-! ### Places -/

/-- A place that the first reading has come to is one of the second input. -/
theorem lt_second_bound {y : Nat} (hx : x < S.second.bound) (hxy : x ≤ y)
    (hy : y < S.first.bound) (hcovered : S.Covered y) : y < S.second.bound := by
  rcases Nat.eq_or_lt_of_le hxy with rfl | hlt
  · exact hx
  · -- the lexeme before it is not the end of the first input, and so not of the second
    obtain ⟨z, rfl⟩ : ∃ z, y = z + 1 := ⟨y - 1, by omega⟩
    have hagrees := hcovered.agrees (x := z) (by omega)
    have hsame : (S.second.lexeme z).isEnd = (S.first.lexeme z).isEnd :=
      S.accepts_eq z hagrees .endOfInput
    have hend : ¬(S.second.lexeme z).isEnd = true := by
      rw [hsame, S.first_regular.isEnd_iff]
      omega
    rw [S.second_regular.isEnd_iff] at hend
    omega

theorem Footing.note (h : S.Footing s) (place : Nat) (expected : List String) :
    S.Footing { s with failure := s.failure.note place expected } := by
  have hle := s.failure.place_le_note place expected
  constructor
  · intro i r hfind
    exact Nat.le_trans (h.failed i r hfind) (Nat.succ_le_succ hle)
  · intro i r n next hfind
    obtain ⟨hnext, hbound, hreach⟩ := h.kept i r n next hfind
    exact ⟨hnext, hbound, by dsimp only; omega⟩

theorem Matches.note {s' : Progress Memo} (h : S.Matches s s') (x : Nat) (expected : List String) :
    S.Matches { s with failure := s.failure.note x expected }
      { s' with failure := s'.failure.note x expected } :=
  ⟨h.table, S.note _ _ _ _ h.failure⟩

/-! ### Parsers that only look -/

variable {x take more : Nat}

theorem tracks_pure {a b : α} (h : view a = view b) :
    S.Tracks x 0 x 0 view (pure a) (pure b) where
  advances _ hx hs :=
    .matched (Nat.le_refl _) hs (Nat.le_refl _) hx (Nat.le_max_left _ _)
  follows _ _ _ _ _ hm _ := .matched h hm

/-- A node whose parts are the same is the same, wherever it begins. -/
theorem tracks_node (kind : Kind) (first first' : Nat) {ps qs : List Part}
    (h : ps.map (Part.retoken S.tidy) = qs.map (Part.retoken S.tidy)) :
    S.Tracks x 0 x 0 (Node.retoken S.tidy) (node kind first ps)
      (node kind first' qs) where
  advances _ hx hs :=
    .matched (Nat.le_refl _) hs (Nat.le_refl _) hx (Nat.le_max_left _ _)
  follows _ _ _ _ _ hm _ := by
    refine .matched ?_ hm
    rw [retoken_mk, retoken_mk, h]

theorem tracks_token {t : Terminal} (hend : (t != .endOfInput) = true)
    (hexpected : t.expected ≠ []) :
    S.Tracks x 1 (x + 1) 0 S.tidy (Parser.token t) (Parser.token t) where
  advances s hx hs := by
    unfold Parser.token
    split
    · rename_i haccepts
      have hnot : ¬(S.first.lexeme x).isEnd = true := by
        rw [Terminal.not_isEnd_of_accepts hend haccepts]
        exact Bool.false_ne_true
      rw [S.first_regular.isEnd_iff] at hnot
      exact .matched (Nat.le_refl _) hs (Nat.le_refl _) (by omega) (by omega)
    · have hplace := s.failure.le_place_note x hexpected
      exact .failed (s.failure.place_le_note _ _) (hs.note _ _) hplace (by dsimp only; omega)
  follows s s' hx hs _ hm hcovers := by
    have hplace := s.failure.le_place_note x hexpected
    unfold Parser.token at hcovers ⊢
    by_cases haccepts : t.accepts (S.first.lexeme x) = true
    · rw [if_pos haccepts] at hcovers ⊢
      have hagrees : S.Agrees x := Covered.agrees hcovers (by omega)
      rw [S.accepts_eq x hagrees, if_pos haccepts]
      exact .matched (S.tidy_eq x hagrees) hm
    · rw [if_neg haccepts] at hcovers ⊢
      have hagrees : S.Agrees x := Covered.agrees hcovers (Nat.lt_succ_of_le hplace)
      rw [S.accepts_eq x hagrees, if_neg haccepts]
      exact .failed (hm.note x _)

/-- Refusing whatever comes. -/
theorem tracks_refuse (hexpected : expected ≠ []) : S.Tracks x take (x + 1) 0 view
      (Parser.note expected >>= fun _ => Parser.fail)
      (Parser.note expected >>= fun _ => Parser.fail) where
  advances s _ hs :=
    .failed (s.failure.place_le_note _ _) (hs.note _ _) (s.failure.le_place_note _ hexpected)
      (Nat.succ_le_succ (s.failure.le_place_note _ hexpected))
  follows _ _ _ _ _ hm _ := .failed (hm.note x expected)

/-- Noting what was expected before something is read. If it is anything, then that shows. -/
theorem Tracks.noted (h : S.Tracks x take reach more view p q)
    (expected : List String) (hreach : reach' ≤ reach ∨ reach' ≤ x + 1 ∧ expected ≠ []) :
    S.Tracks x take reach' more view (Parser.note expected >>= fun _ => p)
      (Parser.note expected >>= fun _ => q) where
  advances s hx hs := by
    have hplace := s.failure.place_le_note x expected
    refine (h.advances _ hx (hs.note x expected)).mono hplace (Nat.le_refl _)
      (Nat.le_refl _) ?_
    rcases hreach with hreach | ⟨hreach, hexpected⟩
    · exact Nat.le_trans hreach (Nat.le_max_left _ _)
    · have hnoted := s.failure.le_place_note x hexpected
      dsimp only
      omega
  follows s s' hx hs hx' hm hcovers :=
    h.follows _ _ hx (hs.note x expected) hx' (hm.note x expected) hcovers

/-! ### Parsers put together -/

/-- Values without an end of a place: the place itself and the number of lexemes are not
compared. -/
theorem Tracks.here {f g : Nat → Parser Memo α}
    (h : S.Tracks x take reach more view (f x) (g x)) :
    S.Tracks x take reach more view (here >>= f) (here >>= g) where
  advances := h.advances
  follows := h.follows

theorem Tracks.bound {f g : Nat → Parser Memo α}
    (h : S.Tracks x take reach more view (f S.first.bound) (g S.second.bound)) :
    S.Tracks x take reach more view (bound >>= f) (bound >>= g) where
  advances := h.advances
  follows := h.follows

/-- One parser after the other. What the first one has looked at without showing it, the second one
looks at again. -/
theorem Tracks.bind {total : Nat} {f g : α → Parser Memo β}
    (hp : S.Tracks x take reach more view p q)
    (follow : Nat → Nat) (hf : ∀ a b y, x + take ≤ y → view a = view b →
      S.Tracks y take' (follow y) more' view' (f a) (g b))
    (hmore : ∀ y, x + take ≤ y → y + more ≤ follow y)
    (htotal : reach' ≤ max reach (x + 1))
    (hreach : ∀ y, x + take ≤ y → reach' ≤ max reach (follow y)) (htake : total ≤ take + take') :
    S.Tracks x total reach' more' view' (p >>= f) (q >>= g) where
  advances s hx hs := by
    have hstep := hp.advances s hx hs
    change S.Advances s _ _ _ (andThen p f _ _ _)
    unfold andThen
    generalize p S.first x s = o at hstep
    cases hstep with
    | error he => exact .error he
    | failed hmono hfooting hplace hshows => exact .failed hmono hfooting hplace (by omega)
    | @matched a j t hmono hfooting htaken hbound hshows =>
      have hthen := (hf a a j htaken rfl).advances t hbound hfooting
      have hy := hreach j htaken
      exact hthen.mono hmono (by omega) (by omega) (by omega)
  follows s s' hx hs hx' hm hcovers := by
    have hstep := hp.advances s hx hs
    have hfollows := hp.follows s s' hx hs hx' hm
    change S.Covers more' (andThen p f _ _ _) at hcovers
    change S.Follows view' (andThen p f _ _ _) (andThen q g _ _ _)
    unfold andThen at hcovers ⊢
    generalize p S.first x s = o at hstep hfollows hcovers
    generalize q S.second x s' = o' at hfollows
    cases hstep with
    | error =>
      cases hfollows hcovers with
      | error he => exact .error he
    | failed =>
      cases hfollows hcovers with
      | failed hm' => exact .failed hm'
    | @matched a j t hmono hfooting htaken hbound hshows =>
      have hthen := (hf a a j htaken rfl).advances t hbound hfooting
      have hopen := hmore j htaken
      have hcovered : S.Covered (max (j + more) (t.failure.place + 1)) :=
        hthen.covered hcovers (by omega)
      have hj' := lt_second_bound hx' (by omega) hbound (hcovered.mono (by omega))
      cases hfollows hcovered with
      | @matched _ b _ _ t' hview hm' =>
        exact (hf a b j htaken hview).follows t t' hbound hfooting hj' hm' hcovers

/-- A value that is made of another. -/
theorem Tracks.map {f g : α → β} (hp : S.Tracks x take reach 0 view p q)
    (hfg : ∀ a b, view a = view b → view' (f a) = view' (g b)) :
    S.Tracks x take reach 0 view' (p >>= fun a => pure (f a)) (q >>= fun b => pure (g b)) :=
  hp.bind (fun y => y) (fun a b _ _ hab => tracks_pure (hfg a b hab))
    (fun _ _ => Nat.le_refl _) (Nat.le_max_left _ _) (fun _ _ => Nat.le_max_left _ _)
    (Nat.le_refl _)

/-- One parser after another one that leaves nothing open. -/
theorem Tracks.andThen {f g : α → Parser Memo β}
    (hp : S.Tracks x take reach 0 view p q)
    (hf : ∀ a b y, x + take ≤ y → view a = view b →
      S.Tracks y 0 y more' view' (f a) (g b)) :
    S.Tracks x take reach more' view' (p >>= f) (q >>= g) :=
  hp.bind (fun y => y) hf (fun _ _ => Nat.le_refl _) (Nat.le_max_left _ _)
    (fun _ _ => Nat.le_max_left _ _) (Nat.le_refl _)

/-- The second parser where the first one fails. What the first one has looked at shows either
way. -/
theorem Tracks.orElse {p' q' : Parser Memo α} (hp : S.Tracks x take reach more view p q)
    (hp' : S.Tracks x take reach' more view p' q') :
    S.Tracks x take reach more view (p.orElse p') (q.orElse q') where
  advances s hx hs := by
    have hstep := hp.advances s hx hs
    unfold Parser.orElse
    generalize p S.first x s = o at hstep
    cases hstep with
    | error he => exact .error he
    | @failed t hmono hfooting hplace hshows =>
      exact (hp'.advances t hx hfooting).mono hmono (Nat.le_refl _) (Nat.le_refl _) (by omega)
    | matched hmono hfooting htaken hbound hshows =>
      exact .matched hmono hfooting htaken hbound hshows
  follows s s' hx hs hx' hm hcovers := by
    have hstep := hp.advances s hx hs
    have hfollows := hp.follows s s' hx hs hx' hm
    unfold Parser.orElse at hcovers ⊢
    generalize p S.first x s = o at hstep hfollows hcovers
    generalize q S.second x s' = o' at hfollows
    cases hstep with
    | error =>
      cases hfollows hcovers with
      | error he => exact .error he
    | @failed t hmono hfooting hplace hshows =>
      have hthen := hp'.advances t hx hfooting
      cases hfollows (hthen.covered hcovers (by omega)) with
      | failed hm' => exact hp'.follows t _ hx hfooting hx' hm' hcovers
    | matched =>
      cases hfollows hcovers with
      | matched hview hm' => exact .matched hview hm'

/-- The value of a parser if it does not fail. -/
theorem Tracks.optional (h : S.Tracks x take reach 0 view p q) :
    S.Tracks x 0 reach 0 (Option.map view) (Parser.optional p) (Parser.optional q) := by
  have hsome : S.Tracks x 0 reach 0 (Option.map view) (p >>= fun a => pure (some a))
      (q >>= fun b => pure (some b)) :=
    (h.mono (Nat.zero_le _) (Nat.le_refl _) (Nat.le_refl _)).map
      fun a b hab => congrArg some hab
  exact hsome.orElse (tracks_pure rfl)

/-! ### Loops -/

/-- Two bounds for loops from a place on: the same, or both more than there are lexemes left. -/
def Enough (S : Alignment) (x n n' : Nat) : Prop :=
  n = n' ∨ S.first.bound ≤ x + n ∧ S.second.bound ≤ x + n'

theorem enough_bound (x : Nat) : S.Enough x S.first.bound S.second.bound :=
  .inr ⟨Nat.le_add_left _ _, Nat.le_add_left _ _⟩

theorem Enough.next {y : Nat} (h : S.Enough x (n + 1) (n' + 1)) (hxy : x + 1 ≤ y) :
    S.Enough y n n' := by
  rcases h with heq | ⟨hfirst, hsecond⟩
  · exact .inl (Nat.succ.inj heq)
  · exact .inr ⟨by omega, by omega⟩

/-- Loops with bounds that are enough, whatever they carry from one round to the next. Each round
takes a lexeme, so it is enough to show one round from what is left to the rounds after it. -/
theorem tracks_loop (loop loop' : Nat → β → Parser Memo α) (view' : β → δ)
    (hzero : ∀ y b b', view' b = view' b' →
      S.Tracks y 0 y 0 view (loop 0 b) (loop' 0 b'))
    (hsucc : ∀ y n n' b b', x ≤ y → view' b = view' b' →
      (∀ z c c', y + 1 ≤ z → view' c = view' c' →
        S.Tracks z 0 z 0 view (loop n c) (loop' n' c')) →
      S.Tracks y 0 (y + 1) 0 view (loop (n + 1) b) (loop' (n' + 1) b'))
    (h : S.Enough x n n') {b b' : β} (hb : view' b = view' b') :
    S.Tracks x 0 x 0 view (loop n b) (loop' n' b') := by
  have hround : ∀ y n n' b b', x ≤ y → view' b = view' b' →
      (∀ z c c', y + 1 ≤ z → view' c = view' c' →
        S.Tracks z 0 z 0 view (loop n c) (loop' n' c')) →
      S.Tracks y 0 y 0 view (loop (n + 1) b) (loop' (n' + 1) b') :=
    fun y n n' b b' hxy hb hrest =>
      (hsucc y n n' b b' hxy hb hrest).mono (Nat.le_refl _) (Nat.le_succ _) (Nat.le_refl _)
  -- with the same bound on both sides there is nothing to know about places
  have hsame : ∀ n y b b', x ≤ y → view' b = view' b' →
      S.Tracks y 0 y 0 view (loop n b) (loop' n b') := by
    intro n
    induction n with
    | zero => exact fun y b b' _ => hzero y b b'
    | succ n ih =>
      exact fun y b b' hxy hb => hround y n n b b' hxy hb fun z c c' hz => ih z c c' (by omega)
  suffices hall : ∀ n y n' b b', x ≤ y → S.Enough y n n' → view' b = view' b' →
      S.Tracks y 0 y 0 view (loop n b) (loop' n' b') from
    hall n x n' b b' (Nat.le_refl _) h hb
  intro n
  induction n with
  | zero =>
    intro y n' b b' _ henough hb
    rcases henough with rfl | ⟨hfirst, -⟩
    · exact hzero y b b' hb
    · exact ⟨fun _ hy => absurd hy (by omega), fun _ _ hy => absurd hy (by omega)⟩
  | succ n ih =>
    intro y n' b b' hxy henough hb
    cases n' with
    | succ n' =>
      exact hround y n n' b b' hxy hb fun z c c' hz hc =>
        ih z n' c c' (by omega) (henough.next hz) hc
    | zero =>
      -- no rounds are not enough at a place of the second input
      refine ⟨(hsame (n + 1) y b b' hxy hb).advances, fun s s' _ _ hy => ?_⟩
      rcases henough with heq | ⟨-, hsecond⟩
      · cases heq
      · omega

section Many

/-- One more value in front. -/
theorem Tracks.cons {rest rest' : Parser Memo (List α)} (h : S.Tracks x 1 reach 0 view p q)
    (hrest : ∀ y, x + 1 ≤ y → S.Tracks y 0 y 0 (List.map view) rest rest') :
    S.Tracks x 1 reach 0 (List.map view)
      (p >>= fun a => rest >>= fun as => pure (a :: as))
      (q >>= fun a => rest' >>= fun as => pure (a :: as)) := by
  refine h.andThen fun a b y hxy hab => (hrest y hxy).map fun as bs has => ?_
  rw [map_cons, map_cons, hab, has]

variable (h : ∀ y, x ≤ y → S.Tracks y 1 (y + 1) 0 view p q)

include h

theorem Tracks.repeated (henough : S.Enough x n n') :
    S.Tracks x 0 x 0 (List.map view) (repeated p n) (repeated q n') := by
  refine tracks_loop (fun n (_ : Unit) => Parser.repeated p n)
    (fun n (_ : Unit) => Parser.repeated q n) id (fun y _ _ _ => tracks_pure rfl)
    (fun y n n' _ _ hxy _ hrest => ?_) henough (Eq.refl (id ()))
  have hcons := (h y hxy).cons fun z hz => hrest z () () hz rfl
  exact (hcons.mono (Nat.zero_le _) (Nat.le_refl _) (Nat.le_refl _)).orElse (tracks_pure rfl)

/-- The values of a parser as often as it does not fail. -/
theorem Tracks.many :
    S.Tracks x 0 (x + 1) 0 (List.map view) (many p) (many q) := by
  refine Tracks.bound ?_
  have hcons := (h x (Nat.le_refl _)).cons fun y hxy =>
    Tracks.repeated (fun z hyz => h z (by omega)) ((enough_bound x).next hxy)
  exact (hcons.mono (Nat.zero_le _) (Nat.le_refl _) (Nat.le_refl _)).orElse (tracks_pure rfl)

/-- The values of a parser as often as it does not fail, at least one. -/
theorem Tracks.manyOne {f : List α → β}
    (hf : ∀ as bs, as.map view = bs.map view → view' (f as) = view' (f bs)) :
    S.Tracks x 1 (x + 1) 0 view'
      (Parser.many p >>= fun as => if as.length < 1 then Parser.fail else pure (f as))
      (Parser.many q >>= fun as => if as.length < 1 then Parser.fail else pure (f as)) := by
  -- where there is no first value the whole fails
  have hunfold : ∀ (p : Parser Memo α) (n : Nat),
      (Parser.repeated p (n + 1) >>= fun as =>
        if as.length < 1 then fail else pure (f as)) =
      p >>= fun a => Parser.repeated p n >>= fun as => pure (f (a :: as)) := by
    intro p n
    rw [Parser.repeated, Parser.orElse_succeed_bind _ _ _ rfl, Parser.bind_assoc]
    refine congrArg _ (funext fun a => ?_)
    rw [Parser.bind_assoc]
    rfl
  rw [Parser.many, Parser.many, Parser.bind_assoc, Parser.bind_assoc]
  refine Tracks.bound ?_
  rw [Input.bound, Input.bound, hunfold, hunfold]
  refine (h x (Nat.le_refl _)).andThen fun a b y hxy hab => ?_
  refine (Tracks.repeated (fun z hyz => h z (by omega)) ((enough_bound x).next hxy)).map
    fun as bs has => hf _ _ ?_
  rw [map_cons, map_cons, hab, has]

end Many

/-- A value and what a step makes of it, as often as the step does not fail. -/
theorem Tracks.extended {step step' : α → Parser Memo α}
    (hstep : ∀ y a b, x ≤ y → view a = view b →
      S.Tracks y 1 (y + 1) 0 view (step a) (step' b))
    (henough : S.Enough x n n') {a b : α} (hab : view a = view b) :
    S.Tracks x 0 x 0 view (extended step n a)
      (extended step' n' b) := by
  refine tracks_loop (Parser.extended step) (Parser.extended step') view
    (fun y a b hab => tracks_pure hab) (fun y n n' a b hxy hab hrest => ?_) henough hab
  have hnext := (hstep y a b hxy hab).andThen fun c d z hyz hcd => hrest z c d hyz hcd
  exact (hnext.mono (Nat.zero_le _) (Nat.le_refl _) (Nat.le_refl _)).orElse (tracks_pure hab)

/-! ### Lists with separators -/

/-- What is compared of a list with separators. -/
def separatedView (tidy : Token → Token) (a : Node × List (Token × Node)) :
    Node × List (Token × Node) :=
  (a.1.retoken tidy, a.2.map fun b => (tidy b.1, b.2.retoken tidy))

theorem separatedPart_view {tidy : Token → Token} {a b : Node × List (Token × Node)}
    (h : separatedView tidy a = separatedView tidy b) :
    (separatedPart a.1 a.2).retoken tidy = (separatedPart b.1 b.2).retoken tidy := by
  obtain ⟨hfirst, hrest⟩ := Prod.mk.inj h
  have hnodes := congrArg (List.map Prod.snd) hrest
  have htokens := congrArg (List.map Prod.fst) hrest
  simp only [List.map_map] at hnodes htokens
  simp only [separatedPart, retoken_separated, map_cons, List.map_map]
  rw [hfirst]
  exact congrArg₂ (fun ns ts => Part.separated (b.1.retoken tidy :: ns) ts) hnodes htokens

section Listing

variable {p q : Parser Memo Node}
  (h : ∀ y, x ≤ y → S.TracksNode y false p q)
  (hfirst : S.Tracks x 1 reach 0 (Node.retoken S.tidy) p q)

theorem tracks_comma : S.Tracks x 1 (x + 1) 0 S.tidy comma comma :=
  tracks_token rfl (cons_ne_nil _ _)

include h hfirst

theorem Tracks.separated :
    S.Tracks x 1 reach 0 (separatedView S.tidy) (Parser.separated p) (Parser.separated q) := by
  have hafter : ∀ y, x ≤ y → S.Tracks y 1 (y + 1) 0
      (fun a : Token × Node => (S.tidy a.1, a.2.retoken S.tidy)) (afterComma p)
      (afterComma q) := by
    intro y hxy
    refine tracks_comma.andThen fun t t' z hyz ht => ?_
    refine ((h z (by omega)).map fun n m hn => ?_).mono (Nat.zero_le _) (Nat.le_succ _)
      (Nat.le_refl _)
    rw [ht, hn]
  refine hfirst.andThen fun n m y hxy hn => ?_
  refine ((Tracks.many fun z hyz => hafter z (by omega)).map fun as bs has => ?_).mono
    (Nat.le_refl _) (Nat.le_succ _) (Nat.le_refl _)
  rw [separatedView, separatedView, hn, has]

theorem Tracks.oneOrMore :
    S.Tracks x 1 reach 0 (Part.retoken S.tidy) (Parser.oneOrMore p) (Parser.oneOrMore q) :=
  (Tracks.separated h hfirst).map fun _ _ hab => separatedPart_view hab

theorem Tracks.zeroOrMore :
    S.Tracks x 0 reach 0 (Part.retoken S.tidy) (Parser.zeroOrMore p) (Parser.zeroOrMore q) :=
  ((Tracks.oneOrMore h hfirst).mono (Nat.zero_le _) (Nat.le_refl _) (Nat.le_refl _)).orElse
    (tracks_pure rfl)

theorem Tracks.trailing :
    S.Tracks x 1 reach 0 (Part.retoken S.tidy) (Parser.trailing p) (Parser.trailing q) := by
  refine (Tracks.separated h hfirst).andThen fun a b y hxy hab => ?_
  refine (tracks_comma.optional.map fun t t' ht => ?_).mono (Nat.le_refl _) (Nat.le_succ _)
    (Nat.le_refl _)
  have hparts := separatedPart_view hab
  simp only [separatedPart, retoken_separated, Part.separated.injEq] at hparts ⊢
  refine ⟨hparts.1, ?_⟩
  rw [map_append, map_append, hparts.2, ← toList_map, ← toList_map, ht]

/-- A list with separators in any mode. -/
theorem Tracks.listing (mode : Listing) {before before' : Option Part}
    (hbefore : before.map (Part.retoken S.tidy) = before'.map (Part.retoken S.tidy)) :
    S.Tracks x mode.least reach 0 (Part.retoken S.tidy) (listing mode before p)
      (listing mode before' q) := by
  cases mode with
  | oneOrMore => exact Tracks.oneOrMore h hfirst
  | zeroOrMore => exact Tracks.zeroOrMore h hfirst
  | trailing => exact Tracks.trailing h hfirst
  | oneUnlessBare =>
    simp only [Parser.listing, Part.any_standsAlone hbefore]
    split
    · exact Tracks.zeroOrMore h hfirst
    · exact (Tracks.oneOrMore h hfirst).mono (Nat.zero_le _) (Nat.le_refl _) (Nat.le_refl _)

end Listing

/-! ### Rules that remember -/

theorem Footing.insert (h : S.Footing t) {r : Rule} {m : Memory}
    (hfailed : m = .failed → S.first.reach r.leads i ≤ t.failure.place + 1)
    (hkept : ∀ n next, m = .kept n next → i + 1 ≤ next ∧ next < S.first.bound ∧
      S.first.reach r.leads i ≤ max next (t.failure.place + 1)) :
    S.Footing { t with table := t.table.insert i r m } := by
  constructor
  · intro i' r' hfind
    rw [find?_insert] at hfind
    split at hfind
    · rename_i hsame
      obtain ⟨rfl, rfl⟩ := hsame
      exact hfailed (some.inj hfind)
    · exact h.failed i' r' hfind
  · intro i' r' n next hfind
    rw [find?_insert] at hfind
    split at hfind
    · rename_i hsame
      obtain ⟨rfl, rfl⟩ := hsame
      exact hkept n next (some.inj hfind)
    · exact h.kept i' r' n next hfind

theorem Matches.insert {t' : Progress Memo} (h : S.Matches t t') (x : Nat) (r : Rule)
    {m m' : Memory} (hm : m.tidied S.tidy = m'.tidied S.tidy) :
    S.Matches { t with table := t.table.insert x r m }
      { t' with table := t'.table.insert x r m' } := by
  refine ⟨fun y r' => ?_, h.failure⟩
  simp only [find?_insert]
  split
  · exact congrArg some hm
  · exact h.table y r'

variable {r : Rule} {again : Bool} {o o' : Parser.Result Node}

/-- What a reading does is the same once its outcome is remembered. -/
theorem Advances.remembered (h : S.Advances s i 1 (S.first.reach r.leads i) o) :
    S.Advances s i 1 (S.first.reach r.leads i) (remembered i r again o) := by
  cases h with
  | error he => exact .error he
  | failed hmono hfooting hplace hreach =>
    refine .failed hmono (hfooting.insert (fun _ => hreach) fun n next hkept => ?_) hplace hreach
    cases hkept
  | @matched a j t hmono hfooting htake hbound hreach =>
    refine .matched hmono (hfooting.insert (fun hfailed => ?_) fun n next hkept => ?_) htake
      hbound hreach
    · cases again <;> cases hfailed
    · obtain ⟨-, rfl⟩ : a = n ∧ j = next := by
        simpa using memoryOf_eq_kept hkept
      exact ⟨htake, hbound, hreach⟩

theorem Follows.remembered (h : S.Follows (Node.retoken S.tidy) o o') :
    S.Follows (Node.retoken S.tidy) (remembered x r again o)
      (remembered x r again o') := by
  cases h with
  | error he => exact .error he
  | failed hm => exact .failed (hm.insert x r rfl)
  | @matched a b y t t' hview hm =>
    refine .matched hview (hm.insert x r ?_)
    cases again with
    | false => rfl
    | true => exact congrArg (Memory.kept · _) hview

theorem Covers.of_remembered (h : S.Covers more (remembered i r again o)) :
    S.Covers more o := by
  rcases o with e | ⟨_ | ⟨a, j⟩, t⟩ <;> exact h

/-- Requests do the same if the parsers do that they run. -/
theorem Tracks.request {p q : Parser Memo Node}
    (h : S.TracksNode x r.leads p q) :
    S.TracksNode x r.leads (request r p) (request r q) where
  advances s hx hs := by
    have hreach := S.first.lt_reach r.leads x
    rcases request_cases r p S.first x s with
      ⟨hknown, heq⟩ | ⟨n, next, hknown, heq⟩ | ⟨again, -, heq⟩ <;> rw [heq]
    · have hfailed := hs.failed _ _ hknown
      exact .failed (Nat.le_refl _) hs (by omega) hfailed
    · obtain ⟨hnext, hbound, hkept⟩ := hs.kept _ _ _ _ hknown
      exact .matched (Nat.le_refl _) hs hnext hbound hkept
    · exact (h.advances s hx hs).remembered
  follows s s' hx hs hx' hm hcovers := by
    have hknown := hm.table x r
    cases hfind : s.table.find? x r <;> cases hfind' : s'.table.find? x r <;>
      simp only [hfind, hfind', map_none, map_some, reduceCtorEq,
        some.injEq] at hknown
    case none.none =>
      simp only [Memo.request, hfind, hfind'] at hcovers ⊢
      exact (h.follows s s' hx hs hx' hm (Covers.of_remembered hcovers)).remembered
    case some.some memory memory' =>
      cases memory <;> cases memory' <;> simp only [Memory.tidied, reduceCtorEq] at hknown
      case failed.failed =>
        simp only [Memo.request, hfind, hfind']
        exact .failed hm
      case matched.matched =>
        simp only [Memo.request, hfind, hfind'] at hcovers ⊢
        exact (h.follows s s' hx hs hx' hm (Covers.of_remembered hcovers)).remembered
      case kept.kept n next n' next' =>
        simp only [Memo.request, hfind, hfind']
        obtain ⟨hview, rfl⟩ := Memory.kept.inj hknown
        exact .matched hview hm

end Alignment

end ShaderSource
