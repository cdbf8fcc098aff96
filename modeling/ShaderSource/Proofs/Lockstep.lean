import ShaderSource.Program
import ShaderSource.Proofs.Tracking

/-!
# Readings in lockstep

How far a reading has looked shows in its outcome: every lexeme that it looked at is before the
place that it came to, or was refused, or stands before one that was refused. This is not so for all
grammars, since a look ahead notes nothing. It is so for this one, because whatever is read after a
look ahead looks at the same lexemes again. `Phrase.steady` checks this of a phrase. The one place
where two lexemes are looked at is the argument list of a call, where a single `void` stands for no
arguments: there what comes next begins with the name of a type, and all rules that may begin so
look behind it, `Phrase.leads`.

So a reading of a second input does the same as a reading of the first one if the inputs agree as
far as the first reading has looked.

## Main results

* `Phrase.read_tracks`: steady phrases are read in lockstep if rules and initializers are.
* `Rule.read_tracks`: rules that remember are read in lockstep.
* `Start.root_tracks`: so are whole sources.
-/

namespace ShaderSource

open Item List Phrase ShaderSource.Alignment ShaderSource.Parser

variable {item : Item} {items : List Item} {p : Phrase} {t : Terminal} {input : Input}
  {noted : List String} {i : Nat} {γ : Type}

/-! ### Steady phrases -/

/-- A terminal that is not the end of the source and that is missed where it does not stand. -/
def Terminal.steady (t : Terminal) : Bool :=
  t != .endOfInput && !t.expected.isEmpty

/-- Whether the phrase reads the name of a built-in type at once, if there is one. -/
def Phrase.takesType : Phrase → Bool
  | .choose [.keywordOf .type] _ (.node _ [.token (.keywordOf .type)]) _ => true
  | _ => false

/-- The items that take a lexeme where they match. -/
def Item.takes : Item → Bool
  | .token _ | .presentToken _ | .child _ | .present _ | .single _ | .branch _ _ => true
  | .list least _ => least == 1
  | .separated mode _ => mode.least == 1
  | .optional _ | .empty _ | .choose _ _ _ _ | .forbid _ _ => false

/-- The items whose outcome shows that a lexeme was looked at. -/
def Item.probes : Item → Bool
  | .empty _ | .forbid _ _ => false
  | _ => true

/-- How many lexemes an item may have looked at behind its place without showing it. -/
def Item.opens : Item → Nat
  | .choose [_] _ _ _ => 0
  | .choose _ _ _ _ | .forbid _ _ => 1
  | _ => 0

/-- A word for no nodes at all, if a certain terminal follows it, or else nodes that begin with the
name of a type if they begin with that word. -/
def Item.voidOrNodes : Item → Bool
  | .choose [t, _] [] [.single (.node _ [.token t'])] [.separated .zeroOrMore (.rule r)] =>
    t == .keyword ["void"] && t' == t && r.leads
  | _ => false

mutual

/-- Whether the phrase looks behind the name of a built-in type that it begins with. -/
def Phrase.leads : Phrase → Bool
  | .node _ items => Item.leadsAll items
  | .rule r => r.leads
  | .orElse first _ => first.leads
  | .choose [.punct _] _ _ no => no.leads
  | .suffixed first _ _ => first.leads
  | .joined _ item => item.leads
  | .choose _ _ _ _ | .initializer | .refuse _ => false

/-- Whether the items look behind the name of a built-in type that they begin with. -/
def Item.leadsAll : List Item → Bool
  | .child p :: items => p.leads || p.takesType && items.any probes
  | _ => false

end

/-- Whether the item looks behind the name of a built-in type that it begins with. -/
def Item.leads : Item → Bool
  | .child p => p.leads
  | _ => false

mutual

/-- Whether what is looked at in reading the phrase shows in the outcome. A steady phrase takes a
lexeme where it matches. -/
def Phrase.steady : Phrase → Bool
  | .node _ items => Item.steadyAll items && items.any Item.takes
  | .rule _ | .initializer => true
  | .orElse first second => first.steady && second.steady
  | .choose ahead _ yes no => ahead.length == 1 && yes.steady && no.steady
  | .refuse expected => !expected.isEmpty
  | .suffixed first _ suffixes => first.steady && !suffixes.isEmpty && Suffix.steadyAll suffixes
  | .joined _ item => item.steady

/-- Whether all suffixes are steady. -/
def Suffix.steadyAll : List Suffix → Bool
  | [] => true
  | .mk _ items follow :: others =>
    Item.steadyAll items && items.any Item.takes && Suffix.steadyAll follow &&
      Suffix.steadyAll others

/-- Whether all items are steady, and what an item leaves open is looked at again. -/
def Item.steadyAll : List Item → Bool
  | [] => true
  | item :: items =>
    item.steady && (item.opens == 0 || items.any Item.probes) && Item.steadyAll items

/-- Whether what is looked at in reading the item shows in the outcome, but for what it leaves
open. -/
def Item.steady : Item → Bool
  | .token t | .presentToken t => t.steady
  | .child p | .present p | .optional p | .separated _ p | .single p | .forbid _ p => p.steady
  | .list least p => decide (least ≤ 1) && p.steady
  | .branch word p => word.steady && p.steady
  | .empty _ => true
  | .choose ahead noted yes no =>
    Item.steadyAll yes && Item.steadyAll no &&
      (ahead.length == 1 && yes.any probes && (!noted.isEmpty || no.any probes) ||
        voidOrNodes (.choose ahead noted yes no))

end

theorem Item.probes_of_takes (h : item.takes = true) : item.probes = true := by
  cases item <;> first | rfl | cases h

theorem Item.any_probes_of_takes (h : items.any takes = true) :
    items.any probes = true := by
  rw [any_eq_true] at h ⊢
  obtain ⟨item, hitem, htakes⟩ := h
  exact ⟨item, hitem, probes_of_takes htakes⟩

theorem Item.probes_of_leads (h : item.leads = true) : item.probes = true := by
  cases item <;> first | rfl | cases h

theorem Item.opens_le_one (item : Item) : item.opens ≤ 1 := by
  unfold opens
  split <;> decide

/-- Items look behind the name of a type if the first one does, or if that takes the name and the
others look at what comes next. -/
theorem Item.leads_or_takesType (h : leadsAll (item :: items) = true) : item.leads = true ∨
      ∃ p, item = .child p ∧ p.takesType = true ∧ items.any probes = true := by
  cases item with
  | child p =>
    rw [leadsAll, Bool.or_eq_true, Bool.and_eq_true] at h
    rcases h with h | ⟨htype, hprobes⟩
    · exact .inl h
    · exact .inr ⟨p, rfl, htype, hprobes⟩
  | _ => cases h

/-! ### The grammar is steady -/

theorem Grammar.production_steady (r : Rule) : (production r).steady = true := by
  cases r with
  | binary level => revert level; decide +kernel
  | _ => decide +kernel

theorem Grammar.production_leads {r : Rule} (h : r.leads = true) :
    (production r).leads = true := by
  cases r with
  | binary level => revert level; decide +kernel
  | _ => revert h; decide +kernel

theorem Grammar.externalDeclaration_steady : externalDeclaration.steady = true := by
  decide +kernel

/-! ### Looking ahead -/

namespace Alignment

variable {S : Alignment} {α γ : Type} {x take reach more : Nat} {view : α → γ}

/-- A single part as a list of parts. -/
theorem Tracks.singleton {p q : Parser Memo Part}
    (h : S.Tracks x take reach 0 (Part.retoken S.tidy) p q) :
    S.Tracks x take reach 0 (List.map (Part.retoken S.tidy)) (p >>= fun part => pure [part])
      (q >>= fun part => pure [part]) :=
  h.map fun _ _ hpart => congrArg (fun part => [part]) hpart

theorem tracks_steady (h : t.steady = true) :
    S.Tracks x 1 (x + 1) 0 S.tidy (Parser.token t) (Parser.token t) := by
  rw [Terminal.steady, Bool.and_eq_true, Bool.not_eq_true', isEmpty_eq_false_iff] at h
  exact tracks_token h.1 h.2

/-- A parser that stops with an error, wherever. -/
theorem tracks_stop {e e' : Input → Error} (hhalts : (e S.first).halts = true)
    (h : S.Errors (e S.first) (e' S.second)) :
    S.Tracks x take reach more view (fun input _ _ => .error (e input))
      (fun input _ _ => .error (e' input)) where
  advances _ _ _ := .error hhalts
  follows _ _ _ _ _ _ _ := .error h

/-- Looking at one lexeme, if what comes next looks at it too or this is left open. -/
theorem Tracks.sees {f g : Bool → Parser Memo α}
    (h : ∀ seen, t.accepts (S.first.lexeme x) = seen →
      S.Tracks x take reach more view (f seen) (g seen))
    (hreach : x + 1 ≤ reach ∨ 1 ≤ more) :
    S.Tracks x take reach more view (Parser.sees [t] >>= f) (Parser.sees [t] >>= g) := by
  have hlooks : ∀ input place, looksAt input place [t] = t.accepts (input.lexeme place) :=
    fun input place => Bool.and_true _
  have hfirst : ∀ s, (Parser.sees [t] >>= f) S.first x s =
      f (t.accepts (S.first.lexeme x)) S.first x s := by
    intro s
    rw [← hlooks]
    rfl
  have hsecond : ∀ s, (Parser.sees [t] >>= g) S.second x s =
      g (t.accepts (S.second.lexeme x)) S.second x s := by
    intro s
    rw [← hlooks]
    rfl
  have hthen := h _ rfl
  constructor
  · intro s hx hs
    rw [hfirst]
    exact hthen.advances s hx hs
  · intro s s' hx hs hx' hm hcovers
    rw [hfirst] at hcovers ⊢
    have hagrees : S.Agrees x := by
      have hadvances := hthen.advances s hx hs
      generalize f _ S.first x s = o at hadvances hcovers
      cases hadvances with
      | error => exact hcovers (x + 1) x (Nat.lt_succ_self _)
      | failed | matched => exact Covered.agrees hcovers (by omega)
    rw [hsecond, S.accepts_eq x hagrees]
    exact hthen.follows s s' hx hs hx' hm hcovers

/-- Looking at two lexemes, the first of which can only be the name of a type: either both are
there, and the first one is taken, or what comes next looks as far. -/
theorem Tracks.seesVoid {u : Terminal} {f g : Bool → Parser Memo α} {a b : α}
    (hyes : (Terminal.keyword ["void"]).accepts (S.first.lexeme x) = true →
      ∀ s, f true S.first x s = .ok (some (a, x + 1), s))
    (hyes' : (Terminal.keyword ["void"]).accepts (S.second.lexeme x) = true →
      ∀ s, g true S.second x s = .ok (some (b, x + 1), s))
    (hab : S.Agrees x → view a = view b)
    (hno : S.Tracks x 0 (S.first.reach true x) 0 view (f false) (g false)) :
    S.Tracks x 0 (x + 1) 1 view (Parser.sees [.keyword ["void"], u] >>= f)
      (Parser.sees [.keyword ["void"], u] >>= g) := by
  have hlooks : ∀ input place, looksAt input place [.keyword ["void"], u] =
      ((Terminal.keyword ["void"]).accepts (input.lexeme place) &&
        u.accepts (input.lexeme (place + 1))) := by
    intro input place
    rw [looksAt, looksAt, looksAt, Bool.and_true]
  have hfirst : ∀ s seen, looksAt S.first x [.keyword ["void"], u] = seen →
      (Parser.sees [.keyword ["void"], u] >>= f) S.first x s =
        f seen S.first x s := by
    rintro s _ rfl
    rfl
  have hsecond : ∀ s seen, looksAt S.second x [.keyword ["void"], u] = seen →
      (Parser.sees [.keyword ["void"], u] >>= g) S.second x s = g seen S.second x s := by
    rintro s _ rfl
    rfl
  have hreach := S.first.lt_reach true x
  cases hseen : looksAt S.first x [.keyword ["void"], u] with
  | true =>
    have hboth := hseen
    rw [hlooks, Bool.and_eq_true] at hboth
    constructor
    · intro s hx hs
      have hnot : ¬(S.first.lexeme x).isEnd = true := by
        rw [Terminal.not_isEnd_of_accepts rfl hboth.1]
        exact Bool.false_ne_true
      rw [S.first_regular.isEnd_iff] at hnot
      rw [hfirst s true hseen, hyes hboth.1]
      exact .matched (Nat.le_refl _) hs (by omega) (by omega) (by omega)
    · intro s s' hx hs hx' hm hcovers
      rw [hfirst s true hseen, hyes hboth.1] at hcovers ⊢
      have hagrees : S.Agrees x := Covered.agrees hcovers (by omega)
      have hagrees' : S.Agrees (x + 1) :=
        Covered.agrees hcovers (by omega)
      have hvoid := (S.accepts_eq x hagrees (.keyword ["void"])).trans hboth.1
      have hclose : u.accepts (S.second.lexeme (x + 1)) = true := by
        rw [S.accepts_eq (x + 1) hagrees']
        exact hboth.2
      rw [hsecond s' true (by rw [hlooks, hvoid, hclose]; rfl), hyes' hvoid]
      exact .matched (hab hagrees) hm
  | false =>
    constructor
    · intro s hx hs
      rw [hfirst s false hseen]
      exact (hno.advances s hx hs).mono (Nat.le_refl _) (Nat.le_refl _) (Nat.le_refl _) (by omega)
    · intro s s' hx hs hx' hm hcovers
      rw [hfirst s false hseen] at hcovers ⊢
      have hcovered : S.Covered (S.first.reach true x) :=
        (hno.advances s hx hs).covered hcovers (Nat.le_max_left _ _)
      have hagrees : S.Agrees x := hcovered.agrees (by omega)
      have hseen' : looksAt S.second x [.keyword ["void"], u] = false := by
        rw [hlooks] at hseen ⊢
        rw [S.accepts_eq x hagrees]
        cases hvoid : (Terminal.keyword ["void"]).accepts (S.first.lexeme x) with
        | false => rfl
        | true =>
          -- a `void` is the name of a type, so what came next has looked behind it
          have htype := S.first_regular.void _ hvoid
          rw [Input.reach, htype] at hcovered
          rw [hvoid] at hseen
          rw [S.accepts_eq (x + 1)
            (hcovered.agrees (by simp))]
          exact hseen
      rw [hsecond s' false hseen']
      exact hno.follows s s' hx hs hx' hm (hcovers.mono (Nat.zero_le _))

/-- What is read in lockstep is looked at further if this is so where the name of a type stands. -/
theorem Tracks.leading {p q : Parser Memo α}
    (h : S.Tracks x take (x + 1) more view p q)
    (htype : (S.first.lexeme x).kind = .keyword .type → ∀ s, x < S.first.bound →
      S.Footing s → S.Advances s x take (x + 2)
        (p S.first x s)) :
    S.Tracks x take (S.first.reach true x) more view p q where
  advances s hx hs := by
    unfold Input.reach
    split
    · rename_i hkind
      exact htype (by simpa using hkind) s hx hs
    · exact h.advances s hx hs
  follows := h.follows

end Alignment

/-! ### Reading -/

namespace Alignment

variable (S : Alignment)

/-- Rules and, from a place on, initializers are read in lockstep. -/
structure TracksCalls (low : Nat) (call call' : Rule → Parser Memo Node)
    (nested nested' : Parser Memo Node) : Prop where
  rule : ∀ r x, S.TracksNode x r.leads (call r) (call' r)
  initializer : ∀ x, low ≤ x → S.TracksNode x false nested nested'

end Alignment

/-- The place behind what items look at: nothing if they show nothing. -/
def Input.horizon (input : Input) (probes leads : Bool) (i : Nat) : Nat :=
  if probes then input.reach leads i else i

theorem Input.le_horizon (input : Input) (probes leads : Bool) (i : Nat) :
    i ≤ input.horizon probes leads i := by
  have hreach := input.lt_reach leads i
  unfold horizon
  split <;> omega

theorem Input.lt_horizon (input : Input) (leads : Bool) (i : Nat) :
    i + 1 ≤ input.horizon true leads i :=
  input.lt_reach leads i

theorem Input.reach_le_of_leads {a b : Bool} (h : a = true → b = true) (i : Nat) :
    input.reach a i ≤ input.reach b i := by
  cases a with
  | false => exact input.lt_reach b i
  | true => exact Nat.le_of_eq (congrArg (input.reach · i) (h rfl).symm)

theorem Input.horizon_le (input : Input) {leads : Bool} (probes : Bool) (i : Nat) :
    input.horizon probes leads i ≤ input.reach leads i := by
  have hreach := input.lt_reach leads i
  unfold horizon
  split <;> omega

section Horizon

variable {input : Input} {item : Item} {items : List Item} {i j : Nat}

/-- What an item leaves open, the items behind it look at again. -/
theorem Item.opens_le_horizon (h : item.opens = 0 ∨ items.any probes = true) (leads : Bool) :
    i + item.opens ≤ input.horizon (items.any probes) leads i := by
  rcases h with h | h
  · rw [h]
    exact input.le_horizon _ _ _
  · rw [h]
    exact Nat.le_trans (Nat.add_le_add_left item.opens_le_one i) (input.lt_horizon _ _)

theorem Item.horizon_cons_le :
    input.horizon ((item :: items).any probes) item.leads i ≤
      max (input.horizon item.probes item.leads i) (i + 1) := by
  cases hleads : item.leads with
  | true =>
    rw [any_cons, probes_of_leads hleads, Bool.true_or]
    exact Nat.le_max_left _ _
  | false => exact Nat.le_trans (input.horizon_le _ i) (Nat.le_max_right _ _)

theorem Item.horizon_cons_le_rest (hij : i ≤ j) (leads : Bool) :
    input.horizon ((item :: items).any probes) item.leads i ≤
      max (input.horizon item.probes item.leads i)
        (input.horizon (items.any probes) leads j) := by
  rw [any_cons]
  cases hprobes : item.probes with
  | true => exact Nat.le_max_left _ _
  | false =>
    have hleads : item.leads = false :=
      Bool.eq_false_iff.mpr fun hleads => by rw [probes_of_leads hleads] at hprobes; cases hprobes
    rw [Bool.false_or, hleads]
    cases items.any probes with
    | false => exact Nat.le_max_left _ _
    | true =>
      exact Nat.le_trans (Nat.succ_le_succ hij)
        (Nat.le_trans (input.lt_horizon leads j) (Nat.le_max_right _ _))

end Horizon

/-- A phrase that reads the name of a type at once. -/
theorem Phrase.eq_of_takesType (h : p.takesType = true) :
    ∃ noted kind no, p = .choose [.keywordOf .type] noted
      (.node kind [.token (.keywordOf .type)]) no := by
  unfold takesType at h
  split at h
  · exact ⟨_, _, _, rfl⟩
  · cases h

theorem Item.eq_of_voidOrNodes {ahead : List Terminal} {yes no : List Item}
    (h : voidOrNodes (.choose ahead noted yes no) = true) :
    ∃ u kind r, ahead = [.keyword ["void"], u] ∧ noted = [] ∧
      yes = [.single (.node kind [.token (.keyword ["void"])])] ∧
      no = [.separated .zeroOrMore (.rule r)] ∧ r.leads = true := by
  unfold voidOrNodes at h
  split at h
  · rename_i t u kind t' r heq
    simp only [Bool.and_eq_true, beq_iff_eq] at h
    obtain ⟨⟨rfl, rfl⟩, hr⟩ := h
    cases heq
    exact ⟨u, kind, r, rfl, rfl, rfl, rfl, hr⟩
  · cases h

section Reading

variable {S : Alignment} {low : Nat} {call call' : Rule → Parser Memo Node}
  {nested nested' : Parser Memo Node}

/-- A node of a single token is read at once where its terminal stands. -/
theorem Phrase.read_leaf {kind : Kind} (h : t.accepts (input.lexeme i) = true)
    (call : Rule → Parser Memo Node) (nested : Parser Memo Node) (s : Progress Memo) :
    (Phrase.node kind [.token t]).read call nested input i s =
      .ok (some (.mk kind NodeId.detached (input.nodeSpan i (i + 1))
        [.token (input.lexeme i).token], i + 1), s) := by
  simp only [Phrase.read, Item.readAll, Item.read, bind, pure, Parser.andThen, Parser.here,
    Parser.token, h, if_true, Parser.succeed, Parser.node, append_nil]

/-- The name of a type is read at once by a phrase that takes it. -/
theorem Phrase.read_of_takesType (h : p.takesType = true)
    (hkind : (input.lexeme i).kind = .keyword .type) (call : Rule → Parser Memo Node)
    (nested : Parser Memo Node) (s : Progress Memo) :
    ∃ n, p.read call nested input i s = .ok (some (n, i + 1), s) := by
  obtain ⟨noted, kind, no, rfl⟩ := eq_of_takesType h
  have haccepts : (Terminal.keywordOf .type).accepts (input.lexeme i) = true := by
    rw [Terminal.accepts, hkind]
    rfl
  have hsees : looksAt input i [.keywordOf .type] = true := by
    rw [looksAt, haccepts]
    rfl
  refine ⟨_, Eq.trans ?_ (@read_leaf _ input i kind haccepts call nested s)⟩
  rw [read]
  change (if looksAt input i [.keywordOf .type] = true then _ else _ : Parser Memo Node)
    input i s = _
  rw [if_pos hsees, read]

/-- A look ahead for a mark is no look behind the name of a type. -/
theorem Phrase.leads_choose {yes no : Phrase} (h : (choose [t] noted yes no).leads = true) :
    (∃ marks, t = .punct marks) ∧ no.leads = true := by
  cases t <;> simp [leads] at h
  exact ⟨⟨_, rfl⟩, h⟩

/-- A mark is not the name of a type. -/
theorem Input.reach_of_accepts_punct {marks : List String}
    (h : (Terminal.punct marks).accepts (input.lexeme i) = true) (leads : Bool) :
    input.reach leads i = i + 1 := by
  rw [Terminal.accepts, Bool.and_eq_true, beq_iff_eq] at h
  simp [Input.reach, h.1]

/-- A single node of one token is read at once where its terminal stands. -/
theorem Item.readAll_single {kind : Kind} {call : Rule → Parser Memo Node}
    {nested : Parser Memo Node} (before : Option Part) (h : t.accepts (input.lexeme i) = true)
    (s : Progress Memo) :
    readAll call nested before [.single (.node kind [.token t])] input i s =
      .ok (some ([.separated [.mk kind NodeId.detached (input.nodeSpan i (i + 1))
        [.token (input.lexeme i).token]] []], i + 1), s) := by
  rw [readAll, read]
  change andThen (andThen (Phrase.read call nested _) _) _ input i s = _
  simp only [andThen, read_leaf h call nested s, readAll]
  rfl

section Calls

set_option linter.unusedSectionVars false

variable (hcalls : S.TracksCalls low call call' nested nested')

include hcalls

mutual

/-- Steady phrases are read in lockstep if rules and initializers are. -/
theorem Phrase.read_tracks : (p : Phrase) → p.steady = true → (x : Nat) → low ≤ x →
    S.TracksNode x p.leads (p.read call nested) (p.read call' nested')
  | .node kind items, h, x, hx => by
    rw [Phrase.steady, Bool.and_eq_true] at h
    obtain ⟨hsteady, htakes⟩ := h
    have hitems := Item.readAll_tracks items hsteady none none rfl x hx
    rw [htakes, any_probes_of_takes htakes] at hitems
    rw [Phrase.read, Phrase.read, Phrase.leads]
    exact Tracks.here (hitems.andThen fun ps qs y _ hps =>
      tracks_node kind _ _ hps)
  | .rule r, _, x, _ => by
    rw [Phrase.read, Phrase.read, Phrase.leads]
    exact hcalls.rule r x
  | .initializer, _, x, hx => by
    rw [Phrase.read, Phrase.read, Phrase.leads]
    exact hcalls.initializer x hx
  | .orElse first second, h, x, hx => by
    rw [Phrase.steady, Bool.and_eq_true] at h
    rw [Phrase.read, Phrase.read, Phrase.leads]
    exact (first.read_tracks h.1 x hx).orElse (second.read_tracks h.2 x hx)
  | .choose ahead noted yes no, h, x, hx => by
    rw [Phrase.steady, Bool.and_eq_true, Bool.and_eq_true, beq_iff_eq,
      length_eq_one_iff] at h
    obtain ⟨⟨⟨t, rfl⟩, hyes⟩, hno⟩ := h
    have hyes := yes.read_tracks hyes x hx
    have hno := (no.read_tracks hno x hx).noted noted (.inl (Nat.le_refl _))
    rw [Phrase.read, Phrase.read]
    refine Tracks.sees (fun seen hseen => ?_) (.inl (S.first.lt_reach _ _))
    cases seen with
    | true =>
      refine hyes.mono (Nat.le_refl _) ?_ (Nat.le_refl _)
      cases hleads : (choose [t] noted yes no).leads with
      | false => exact S.first.lt_reach _ _
      | true =>
        obtain ⟨⟨marks, rfl⟩, -⟩ := leads_choose hleads
        rw [Input.reach_of_accepts_punct hseen]
        exact S.first.lt_reach _ _
    | false =>
      exact hno.mono (Nat.le_refl _)
        (Input.reach_le_of_leads (fun hleads => (leads_choose hleads).2) _)
        (Nat.le_refl _)
  | .refuse expected, h, x, _ => by
    rw [Phrase.steady, Bool.not_eq_true', isEmpty_eq_false_iff] at h
    rw [Phrase.read, Phrase.read, Phrase.leads]
    exact tracks_refuse h
  | .suffixed first repeated suffixes, h, x, hx => by
    rw [Phrase.steady, Bool.and_eq_true, Bool.and_eq_true, Bool.not_eq_true',
      isEmpty_eq_false_iff] at h
    obtain ⟨⟨hfirst, hsome⟩, hsuffixes⟩ := h
    rw [Phrase.read, Phrase.read, Phrase.leads]
    refine Tracks.here ((first.read_tracks hfirst x hx).andThen
      fun head head' y hxy hhead => ?_)
    have hstep : ∀ z n m, y ≤ z → n.retoken S.tidy = m.retoken S.tidy →
        S.TracksNode z false (Suffix.readAny call nested suffixes x n)
          (Suffix.readAny call' nested' suffixes x m) :=
      fun z n m hyz hnm => Suffix.readAny_tracks suffixes hsuffixes hsome _ _ n m hnm z
        (by omega)
    cases repeated with
    | true => exact Tracks.bound (.extended hstep (enough_bound y) hhead)
    | false => exact .extended hstep (.inl rfl) hhead
  | .joined kind item, h, x, hx => by
    rw [Phrase.steady] at h
    have hitem : ∀ y, x ≤ y → S.TracksNode y false
        (item.read call nested) (item.read call' nested') :=
      fun y hxy => (item.read_tracks h y (by omega)).shallow
    rw [Phrase.read, Phrase.read, Phrase.leads]
    refine Tracks.here ((Tracks.separated hitem
      (item.read_tracks h x hx)).andThen fun a b y _ hab => ?_)
    have hpart := separatedPart_view hab
    obtain ⟨n, rest⟩ := a
    obtain ⟨m, rest'⟩ := b
    obtain ⟨hfirst, hrest⟩ := Prod.mk.inj hab
    have hempty : rest.isEmpty = rest'.isEmpty := by
      cases rest <;> cases rest' <;> first | rfl | cases hrest
    simp only [hempty]
    split
    · exact tracks_pure hfirst
    · exact tracks_node kind _ _ (congrArg (fun part => [part]) hpart)

theorem Suffix.readAny_tracks :
    (ss : List Suffix) → Suffix.steadyAll ss = true → ss ≠ [] → (start start' : Nat) →
      (head head' : Node) → head.retoken S.tidy = head'.retoken S.tidy → (x : Nat) → low ≤ x →
      S.TracksNode x false
        (Suffix.readAny call nested ss start head) (Suffix.readAny call' nested' ss start' head')
  | [], _, hne, _, _, _, _, _, _, _ => absurd rfl hne
  | .mk kind items follow :: others, h, _, start, start', head, head', hhead, x, hx => by
    simp only [Suffix.steadyAll, Bool.and_eq_true] at h
    obtain ⟨⟨⟨hsteady, htakes⟩, hfollow⟩, hothers⟩ := h
    have hitems := Item.readAll_tracks items hsteady none none rfl x hx
    rw [htakes, any_probes_of_takes htakes] at hitems
    have hone : S.TracksNode x false
        (do
          let parts ← readAll call nested none items
          let node ← node kind start (.child head :: parts)
          (Suffix.readAny call nested follow start node).orElse (succeed node))
        (do
          let parts ← readAll call' nested' none items
          let node ← node kind start' (.child head' :: parts)
          (Suffix.readAny call' nested' follow start' node).orElse (succeed node)) := by
      refine hitems.shallow.andThen fun ps qs y hxy hps => ?_
      have hparts : (.child head :: ps : List Part).map (Part.retoken S.tidy) =
          (.child head' :: qs : List Part).map (Part.retoken S.tidy) := by
        rw [map_cons, map_cons, hps, Part.retoken_child, Part.retoken_child, hhead]
      refine (tracks_node kind start start' hparts).andThen
        fun n m z hyz hnm => ?_
      by_cases hnone : follow = []
      · subst hnone
        rw [Suffix.readAny, Suffix.readAny, fail_orElse, fail_orElse]
        exact tracks_pure hnm
      · exact ((Suffix.readAny_tracks follow hfollow hnone start start' n m hnm z
          (by simp at hxy; omega)).mono (Nat.zero_le _) (Nat.le_succ _) (Nat.le_refl _)).orElse
            (tracks_pure hnm)
    rw [Suffix.readAny, Suffix.readAny]
    by_cases hlast : others = []
    · subst hlast
      rw [Suffix.readAny, Suffix.readAny, orElse_fail, orElse_fail]
      exact hone
    · exact hone.orElse
        (Suffix.readAny_tracks others hothers hlast start start' head head' hhead x hx)

theorem Item.readAll_tracks :
    (items : List Item) → steadyAll items = true → (before before' : Option Part) →
      before.map (Part.retoken S.tidy) = before'.map (Part.retoken S.tidy) → (x : Nat) → low ≤ x →
      S.Tracks x (items.any takes).toNat
        (S.first.horizon (items.any probes) (leadsAll items) x) 0
        (List.map (Part.retoken S.tidy)) (readAll call nested before items)
        (readAll call' nested' before' items)
  | [], _, before, before', _, x, _ => by
    rw [readAll, readAll]
    exact tracks_pure rfl
  | item :: items, h, before, before', hbefore, x, hx => by
    rw [steadyAll, Bool.and_eq_true, Bool.and_eq_true, Bool.or_eq_true, beq_iff_eq] at h
    obtain ⟨⟨hsteady, hopens⟩, hrest⟩ := h
    have hitem := Item.read_tracks item hsteady before before' hbefore x hx
    have hitems : ∀ ps qs y, x + item.takes.toNat ≤ y →
        ps.map (Part.retoken S.tidy) = qs.map (Part.retoken S.tidy) →
        S.Tracks y (items.any takes).toNat
          (S.first.horizon (items.any probes) (leadsAll items) y) 0
          (List.map (Part.retoken S.tidy))
          (do
            let rest ← readAll call nested (ps.getLast?.or before) items
            return ps ++ rest)
          (do
            let rest ← readAll call' nested' (qs.getLast?.or before') items
            return qs ++ rest) := by
      intro ps qs y hxy hps
      refine (Item.readAll_tracks items hrest _ _ ?_ y (by omega)).map
        fun ps' qs' hps' => ?_
      · rw [Option.map_or, Option.map_or, ← getLast?_map, ← getLast?_map, hps, hbefore]
      · rw [map_append, map_append, hps, hps']
    have hall : S.Tracks x ((item :: items).any takes).toNat
        (S.first.horizon ((item :: items).any probes) item.leads x) 0
        (List.map (Part.retoken S.tidy)) (readAll call nested before (item :: items))
        (readAll call' nested' before' (item :: items)) := by
      rw [readAll, readAll]
      refine hitem.bind _ hitems (fun y _ => opens_le_horizon hopens _) horizon_cons_le
        (fun y hxy => horizon_cons_le_rest (by omega) _) ?_
      rw [any_cons]
      cases item.takes <;> cases items.any takes <;> decide
    cases hleads : leadsAll (item :: items) with
    | false =>
      refine hall.mono (Nat.le_refl _) ?_ (Nat.le_refl _)
      unfold Input.horizon
      split
      · exact S.first.lt_reach _ _
      · exact Nat.le_refl _
    | true =>
      rcases leads_or_takesType hleads with hitemLeads | ⟨p, rfl, hp, hprobes⟩
      · rw [hitemLeads] at hall
        exact hall
      · -- the name of a type is taken at once, and then the other items look behind it
        refine (hall.mono (Nat.le_refl _) (S.first.lt_horizon _ _) (Nat.le_refl _)).leading
          fun hkind s hx' hs => ?_
        obtain ⟨n, hn⟩ := read_of_takesType hp hkind call nested s
        have hstep : readAll call nested before (.child p :: items) S.first x s =
            (do
              let rest ← readAll call nested ([Part.child n].getLast?.or before) items
              return [Part.child n] ++ rest : Parser Memo (List Part)) S.first
              (x + 1) s := by
          rw [Item.readAll, Item.read]
          change andThen (andThen (p.read call nested) _) _ _ _ _ = _
          simp only [andThen, hn]
          rfl
        have hnot : ¬(S.first.lexeme x).isEnd = true := by
          rw [Lexeme.isEnd, hkind]
          exact Bool.false_ne_true
        rw [S.first_regular.isEnd_iff] at hnot
        have hbehind := (hitems [.child n] [.child n] (x + 1) (Nat.le_refl _) rfl).advances s
          (by omega) hs
        rw [hprobes] at hbehind
        have hhorizon := S.first.lt_horizon (leadsAll items) (x + 1)
        have htake := Bool.toNat_le ((child p :: items).any takes)
        rw [hstep]
        exact hbehind.mono (Nat.le_refl _) (by omega) (by omega) (by omega)

/-- An item is read in lockstep, whatever part comes before it. -/
theorem Item.read_tracks : (item : Item) → item.steady = true → (before before' : Option Part) →
      before.map (Part.retoken S.tidy) = before'.map (Part.retoken S.tidy) → (x : Nat) → low ≤ x →
      S.Tracks x item.takes.toNat (S.first.horizon item.probes item.leads x) item.opens
        (List.map (Part.retoken S.tidy)) (read call nested before item)
        (read call' nested' before' item)
  | .token t, h, _, _, _, x, _ | .presentToken t, h, _, _, _, x, _ => by
    rw [Item.read, Item.read]
    exact (tracks_steady h).map fun _ _ ht => by simp [ht]
  | .child p, h, _, _, _, x, hx => by
    rw [Item.read, Item.read]
    exact (p.read_tracks h x hx).map fun _ _ hn => by simp [hn]
  | .present p, h, _, _, _, x, hx | .single p, h, _, _, _, x, hx => by
    rw [Item.read, Item.read]
    exact (p.read_tracks h x hx).shallow.map fun _ _ hn => by simp [hn]
  | .optional p, h, _, _, _, x, hx => by
    rw [Item.read, Item.read]
    exact (p.read_tracks h x hx).shallow.optional.map fun _ _ ho => by simp [ho]
  | .list least p, h, _, _, _, x, hx => by
    rw [Item.steady, Bool.and_eq_true, decide_eq_true_eq] at h
    have hp : ∀ y, x ≤ y → S.TracksNode y false (p.read call nested) (p.read call' nested') :=
      fun y hxy => (p.read_tracks h.2 y (by omega)).shallow
    rw [Item.read, Item.read]
    rcases Nat.le_one_iff_eq_zero_or_eq_one.mp h.1 with rfl | rfl
    · exact (Tracks.many hp).map (f := fun ns => [Part.list ns])
        (g := fun ns => [Part.list ns]) fun _ _ hns => by simp [hns]
    · exact Tracks.manyOne hp fun _ _ hns => by simp [hns]
  | .separated mode p, h, before, before', hbefore, x, hx => by
    have hp : ∀ y, x ≤ y → S.TracksNode y false (p.read call nested) (p.read call' nested') :=
      fun y hxy => (p.read_tracks h y (by omega)).shallow
    have hlist := (Tracks.listing hp (hp x (Nat.le_refl _)) mode hbefore).singleton
    rw [Item.read, Item.read]
    cases mode <;> exact hlist
  | .branch word p, h, _, _, _, x, hx => by
    rw [Item.steady, Bool.and_eq_true] at h
    rw [Item.read, Item.read]
    refine (tracks_steady h.1).andThen fun t t' y hxy ht => ?_
    exact ((p.read_tracks h.2 y (by omega)).mono (Nat.zero_le _)
      (Nat.le_of_succ_le (S.first.lt_reach _ _)) (Nat.le_refl _)).map fun _ _ hn => by
        simp [ht, hn]
  | .empty part, _, _, _, _, x, _ => by
    rw [Item.read, Item.read]
    exact tracks_pure rfl
  | .choose ahead noted yes no, h, before, before', hbefore, x, hx => by
    rw [Item.steady, Bool.and_eq_true, Bool.and_eq_true, Bool.or_eq_true] at h
    obtain ⟨⟨hyes, hno⟩, hlook⟩ := h
    have hyes := Item.readAll_tracks yes hyes before before' hbefore x hx
    have hno := Item.readAll_tracks no hno before before' hbefore x hx
    rw [Item.read, Item.read]
    rcases hlook with hone | hvoid
    · rw [Bool.and_eq_true, Bool.and_eq_true, Bool.or_eq_true, Bool.not_eq_true',
        isEmpty_eq_false_iff, beq_iff_eq, length_eq_one_iff] at hone
      obtain ⟨⟨⟨t, rfl⟩, hprobes⟩, hshows⟩ := hone
      refine Tracks.sees (fun seen _ => ?_) (.inl (S.first.lt_horizon _ _))
      cases seen with
      | true =>
        rw [hprobes] at hyes
        exact hyes.mono (Nat.zero_le _) (S.first.lt_horizon _ _) (Nat.le_refl _)
      | false =>
        refine (hno.noted noted ?_).mono (Nat.zero_le _) (Nat.le_refl _) (Nat.le_refl _)
        rcases hshows with hnoted | hprobes'
        · exact .inr ⟨Nat.le_refl _, hnoted⟩
        · rw [hprobes']
          exact .inl (S.first.lt_horizon _ _)
    · obtain ⟨u, kind, r, rfl, rfl, rfl, rfl, hr⟩ := eq_of_voidOrNodes hvoid
      refine Tracks.seesVoid (readAll_single before)
        (readAll_single before') (fun hagrees => ?_) ?_
      · simp [Node.retoken_mk, S.tidy_eq x hagrees]
      · have hrule : ∀ y, x ≤ y → S.TracksNode y false (call r) (call' r) :=
          fun y _ => (hcalls.rule r y).shallow
        have hfirst := hcalls.rule r x
        rw [hr] at hfirst
        have hlist := (Tracks.zeroOrMore hrule hfirst).singleton
        simp only [Item.readAll, Item.read, Phrase.read]
        refine Tracks.noted (hlist.map fun _ _ hparts => ?_) [] (.inl (Nat.le_refl _))
        rw [append_nil, append_nil, hparts]
  | .forbid closing p, h, _, _, _, x, hx => by
    rw [Item.read, Item.read]
    refine Tracks.sees (fun seen _ => ?_) (.inr (Nat.le_refl _))
    cases seen with
    | true => exact (tracks_pure rfl).mono (Nat.le_refl _) (Nat.le_refl _) (Nat.zero_le _)
    | false =>
      refine Tracks.here ?_
      have hp : S.Tracks x 1 x 0 (Node.retoken S.tidy) (p.read call nested)
          (p.read call' nested') :=
        (p.read_tracks h x hx).mono (Nat.le_refl _)
          (Nat.le_of_succ_le (S.first.lt_reach _ _)) (Nat.le_refl _)
      refine hp.optional.andThen fun o o' y _ ho => ?_
      cases o <;> cases o'
      case none.none =>
        exact (tracks_pure rfl).mono (Nat.le_refl _) (Nat.le_refl _) (Nat.zero_le _)
      case some.some => exact tracks_stop rfl (S.forbidden x)
      all_goals cases ho

end

end Calls

/-- An initializer is read in lockstep if rules are and, behind its first lexeme, the initializers
in it. -/
theorem Grammar.initializer_tracks {x : Nat}
    (hcalls : S.TracksCalls (x + 1) call call' nested nested') :
    S.TracksNode x false (initializer.read call nested)
      (initializer.read call' nested') := by
  have hbrace : S.Tracks x 1 (x + 1) 0 (List.map (Part.retoken S.tidy))
      (read call nested none (mark "\x7b")) (read call' nested' none (mark "\x7b")) := by
    simp only [mark, Item.read]
    exact (tracks_steady (by decide)).map fun _ _ ht => by simp [ht]
  have hlist : S.TracksNode x false
      (read call nested (.node .initializerList
        [mark "\x7b", .separated .trailing .initializer, mark "\x7d"]))
      (read call' nested' (.node .initializerList
        [mark "\x7b", .separated .trailing .initializer, mark "\x7d"])) := by
    rw [Phrase.read, Phrase.read, Item.readAll, Item.readAll]
    refine Tracks.here (Tracks.andThen
      (hbrace.andThen fun ps qs y hxy hps => ?_) fun ps qs y _ hps =>
        tracks_node _ _ _ hps)
    have hrest := readAll_tracks hcalls
      [.separated .trailing .initializer, mark "\x7d"] (by decide) (ps.getLast?.or none)
      (qs.getLast?.or none)
      (by rw [Option.map_or, Option.map_or, ← getLast?_map, ← getLast?_map, hps])
      y hxy
    exact (hrest.mono (Nat.zero_le _) (S.first.le_horizon _ _ _) (Nat.le_refl _)).map
      fun ps' qs' hps' => by rw [map_append, map_append, hps, hps']
  rw [initializer, Phrase.read, Phrase.read]
  have hassignment : S.TracksNode x Rule.assignment.leads (read call nested (.rule .assignment))
      (read call' nested' (.rule .assignment)) := by
    rw [Phrase.read, Phrase.read]
    exact hcalls.rule .assignment x
  exact hlist.orElse hassignment

/-- Initializers are read in lockstep if rules are, whatever the depth of the lists in them is, as
long as it is more than the lexemes allow. -/
theorem readInitializer_tracks
    (hcall : ∀ r x, S.TracksNode x r.leads (call r) (call' r)) (n : Nat) :
    ∀ n' x, S.first.bound ≤ x + n → S.second.bound ≤ x + n' →
      S.TracksNode x false (readInitializer call n)
        (readInitializer call' n') := by
  induction n with
  | zero =>
    intro n' x hfirst _
    exact ⟨fun _ hx => absurd hx (by omega), fun _ _ hx => absurd hx (by omega)⟩
  | succ n ih =>
    intro n' x hfirst hsecond
    have hsucc : ∀ m, S.second.bound ≤ x + (m + 1) →
        S.TracksNode x false (readInitializer call (n + 1))
          (readInitializer call' (m + 1)) := by
      intro m hm
      exact Grammar.initializer_tracks
        ⟨hcall, fun y hxy => ih m y (by omega) (by omega)⟩
    cases n' with
    | succ m => exact hsucc m hsecond
    | zero =>
      -- a depth of nothing is not enough at a place of the second input
      refine ⟨(hsucc S.second.bound (by omega)).advances, fun _ _ _ _ hx' => ?_⟩
      omega

/-- Steady phrases are read in lockstep if rules are. -/
theorem Phrase.parser_tracks
    (hcall : ∀ r x, S.TracksNode x r.leads (call r) (call' r)) (h : p.steady = true) (x : Nat) :
    S.TracksNode x p.leads (p.parser call)
      (p.parser call') := by
  have hcalls : S.TracksCalls 0 call call' (bound >>= readInitializer call)
      (bound >>= readInitializer call') :=
    ⟨hcall, fun y _ => Tracks.bound (readInitializer_tracks hcall _ _ y
      (Nat.le_add_left _ _) (Nat.le_add_left _ _))⟩
  exact p.read_tracks hcalls h x (Nat.zero_le _)

end Reading

/-! ### Rules and whole sources -/

section Rules

variable {S : Alignment}

/-- Rules that remember are read in lockstep. -/
theorem Rule.read_tracks (depth : Nat) (r : Rule) (x : Nat) :
    S.TracksNode x r.leads (Rule.read depth r) (Rule.read depth r) := by
  induction depth generalizing r x with
  | zero =>
    rw [Rule.read, Rule.readWith]
    exact Tracks.request
      ⟨fun _ _ _ => .error rfl, fun _ _ _ _ _ _ _ => .error (S.tooDeep x)⟩
  | succ depth ih =>
    refine Tracks.request ?_
    exact (parser_tracks ih (Grammar.production_steady r) x).mono (Nat.le_refl _)
      (Input.reach_le_of_leads Grammar.production_leads _) (Nat.le_refl _)

/-- The nodes below the root are read in lockstep. -/
theorem Start.nodes_tracks (start : Start) (depth x : Nat) :
    S.Tracks x 0 (x + 1) 0 (List.map (Node.retoken S.tidy))
      (start.nodes (Rule.read depth)) (start.nodes (Rule.read depth)) := by
  have hunit : ∀ y, S.TracksNode y false (Grammar.externalDeclaration.parser (Rule.read depth))
      (Grammar.externalDeclaration.parser (Rule.read depth)) :=
    fun y =>
      (parser_tracks (Rule.read_tracks depth) Grammar.externalDeclaration_steady y).shallow
  have hrule : ∀ r, S.Tracks x 0 (x + 1) 0 (Node.retoken S.tidy) (Rule.read depth r)
      (Rule.read depth r) :=
    fun r => (Rule.read_tracks depth r x).mono (Nat.zero_le _) (S.first.lt_reach _ _)
      (Nat.le_refl _)
  cases start with
  | translationUnit => exact Tracks.many fun y _ => hunit y
  | externalDeclaration =>
    exact ((hunit x).mono (Nat.zero_le _) (Nat.le_refl _) (Nat.le_refl _)).map
      fun _ _ hn => by rw [map_singleton, map_singleton, hn]
  | statement =>
    exact (hrule .statement).map fun _ _ hn => by
      rw [map_singleton, map_singleton, hn]
  | expression =>
    exact (hrule .expression).map fun _ _ hn => by
      rw [map_singleton, map_singleton, hn]

/-- The end of a source and the root around what was read before it. The end itself is left
open. -/
theorem Alignment.tracks_root {x : Nat} {view : Node → γ} {ps qs : List Part}
    (h : ∀ span span', view (.mk .program NodeId.detached span ps) =
      view (.mk .program NodeId.detached span' qs)) :
    S.Tracks x 0 x 1 view (Parser.atEnd >>= fun _ => Parser.node .program 0 ps)
      (Parser.atEnd >>= fun _ => Parser.node .program 0 qs) := by
  have hrun : ∀ (input : Input) (i : Nat) (s : Progress Memo) (ps : List Part),
      (Parser.atEnd >>= fun _ => Parser.node .program 0 ps) input i s =
        if (input.lexeme i).isEnd then
          .ok (some (.mk .program NodeId.detached (input.nodeSpan 0 i) ps, i), s)
        else .ok (none, { s with
          failure := s.failure.note i Terminal.endOfInput.expected }) := by
    intro input i s ps
    change Parser.andThen _ _ input i s = _
    by_cases hend : (input.lexeme i).isEnd = true <;>
      simp [Parser.andThen, Parser.atEnd, Parser.node, hend]
  have hexpected : Terminal.endOfInput.expected ≠ [] := cons_ne_nil _ _
  constructor
  · intro s hx hs
    rw [hrun]
    split
    · exact .matched (Nat.le_refl _) hs (Nat.le_refl _) hx (Nat.le_max_left _ _)
    · have hplace := s.failure.le_place_note x hexpected
      exact .failed (s.failure.place_le_note _ _) (hs.note _ _) hplace (Nat.le_succ_of_le hplace)
  · intro s s' hx hs hx' hm hcovers
    rw [hrun] at hcovers
    rw [hrun, hrun]
    have hplace := s.failure.le_place_note x hexpected
    have hagrees : S.Agrees x := by
      split at hcovers
      · exact Covered.agrees hcovers (by omega)
      · exact Covered.agrees hcovers (Nat.lt_succ_of_le hplace)
    have hsame : (S.second.lexeme x).isEnd = (S.first.lexeme x).isEnd :=
      S.accepts_eq x hagrees .endOfInput
    rw [hsame]
    split
    · exact .matched (h _ _) hm
    · exact .failed (hm.note x _)

/-- Roots are the same to the view if the nodes below them are. -/
def Start.Views (leading leading' : String) (tidy : Token → Token) {γ : Type} (view : Node → γ) :
    Prop :=
  ∀ ns ms span span', ns.map (Node.retoken tidy) = ms.map (Node.retoken tidy) →
    view (.mk .program NodeId.detached span [.text leading, .list ns]) =
      view (.mk .program NodeId.detached span' [.text leading', .list ms])

theorem Start.root_tracks (start : Start) {leading leading' : String} {view : Node → γ}
    (hview : Start.Views leading leading' S.tidy view) (depth x : Nat) :
    S.Tracks x 0 x 1 view (start.root (Rule.read depth) leading)
      (start.root (Rule.read depth) leading') :=
  ((start.nodes_tracks depth x).andThen fun ns ms _ _ hns =>
    tracks_root fun span span' => hview ns ms span span' hns).mono (Nat.le_refl _)
      (Nat.le_succ _) (Nat.le_refl _)

end Rules

/-! ### Whole sources -/

/-- What comes of reading a whole input, before anything is made of a failure. -/
def Start.outcome (start : Start) (input : Input) : Parser.Result Node :=
  start.root (Rule.read Rule.maxDepth) input.lexemes.leading input 0
    ⟨Memo.empty, Failure.initial⟩

/-- What is made of that. A reading that comes to nothing ends with the furthest failure. -/
def Parser.Result.settle (input : Input) (source : Option String) :
    Parser.Result Node → Except Error Node
  | .error e => .error e
  | .ok (some (root, _), _) => .ok root
  | .ok (none, t) => .error (t.failure.error input source)

theorem readTree_eq (start : Start) (input : Input) (source : Option String) :
    readTree start input source = (start.outcome input).settle input source := by
  unfold readTree run Start.outcome
  rcases start.root (Rule.read Rule.maxDepth) input.lexemes.leading input 0
    ⟨Memo.empty, Failure.initial⟩ with e | ⟨_ | ⟨a, j⟩, t⟩ <;> rfl

theorem Program.parse_of_readTree_error {text : String} {options : Options} {e : Error}
    (h : Program.readText text options = .error e) : Program.parse text options = .error e := by
  rw [Program.parse, Program.parseLogged, Program.readNumbered, h]
  rfl

/-- A table that knows nothing shows in any failure. -/
theorem Alignment.footing_empty (S : Alignment) (f : Failure) : S.Footing ⟨Memo.empty, f⟩ := by
  constructor
  · intro i r hfind
    rw [Memo.find?_empty] at hfind
    cases hfind
  · intro i r n next hfind
    rw [Memo.find?_empty] at hfind
    cases hfind

section Whole

variable (S : Alignment)

theorem Start.outcome_advances (start : Start) :
    S.Advances ⟨Memo.empty, Failure.initial⟩ 0 0 0 (start.outcome S.first) := by
  have hview : Start.Views S.first.lexemes.leading S.first.lexemes.leading S.tidy fun _ => () :=
    fun _ _ _ _ _ => rfl
  exact (start.root_tracks hview Rule.maxDepth 0).advances _ (Nat.succ_pos _)
    (S.footing_empty Failure.initial)

/-- **Whole inputs are read in lockstep**, as far as the first reading has looked. -/
theorem Start.outcome_follows (start : Start) {view : Node → γ}
    (hview : Start.Views S.first.lexemes.leading S.second.lexemes.leading S.tidy view)
    (hcovers : S.Covers 1 (start.outcome S.first)) :
    S.Follows view (start.outcome S.first) (start.outcome S.second) := by
  exact (start.root_tracks (S := S) hview Rule.maxDepth 0).follows
    ⟨Memo.empty, Failure.initial⟩ ⟨Memo.empty, Failure.initial⟩ (Nat.succ_pos _)
    (S.footing_empty _) (Nat.succ_pos _)
    ⟨fun _ _ => rfl, S.failures_initial⟩ hcovers

end Whole

theorem Lexemes.get_of_size_le {ls : Lexemes} (h : ls.body.size ≤ i) : ls.get i = ls.final := by
  simp [get, Nat.not_lt.mpr h]

/-- The lexemes of a source are regular. -/
theorem Lexemes.ofString_regular (text : String) (located : Bool) :
    (Input.mk (ofString text) located).Regular where
  isEnd_iff i := by
    constructor
    · intro hend
      exact Nat.succ_le_succ (size_le_of_isEnd hend)
    · intro hbound
      rw [Input.lexeme, get_of_size_le (Nat.le_of_succ_le_succ hbound)]
      rfl
  void i h := by
    rw [Terminal.accepts, Bool.and_eq_true] at h
    rcases get_cases text i with ⟨hmem, -⟩ | ⟨hend, -⟩
    · have hvoid : ((ofString text).get i).text = "void" := by simpa [Input.lexeme] using h.2
      obtain ⟨rest, c, cs, htext, hlexeme, -⟩ := (ofString_standing text).standsBefore hmem
      rw [hvoid] at htext
      obtain ⟨rfl, rfl⟩ := cons.inj htext
      exact (Scan.of_lexeme_word (by decide) hlexeme).2.2.symm.trans (by decide)
    · rw [Lexeme.isEnd, beq_iff_eq] at hend
      rw [Input.lexeme, hend] at h
      cases h.1

/-! ### Sources with the same words -/

/-- What the grammar looks at in a lexeme: its kind and its text. -/
def Lexeme.word (l : Lexeme) : LexemeKind × String :=
  (l.kind, l.text)

/-- A token without its trivia. -/
def Token.plain (t : Token) : Token :=
  ⟨t.text, ""⟩

theorem Terminal.accepts_of_word {l m : Lexeme} (h : l.word = m.word) (t : Terminal) :
    t.accepts m = t.accepts l := by
  obtain ⟨hkind, htext⟩ := Prod.mk.inj h
  cases t <;> simp only [Terminal.accepts, hkind, htext]

theorem Lexeme.found_eq_of_word {l l' : Lexeme} (h : l.word = l'.word) :
    (if l.isEnd = true then none else some l.text) =
      if l'.isEnd = true then none else some l'.text := by
  obtain ⟨hkind, htext⟩ := Prod.mk.inj h
  have hend : l.isEnd = l'.isEnd := congrArg (· == LexemeKind.endOfInput) hkind
  rw [hend, htext]

theorem Failure.note_congr (f f' : Failure) (x : Nat) (expected : List String) (h : f = f') :
    f.note x expected = f'.note x expected := by
  rw [h]

/-- Two sources, lexeme by lexeme, the trivia left out. -/
def Alignment.ofSources (text text' : String) (located : Bool) : Alignment where
  first := ⟨Lexemes.ofString text, located⟩
  second := ⟨Lexemes.ofString text', located⟩
  Agrees x := ((Lexemes.ofString text).get x).word = ((Lexemes.ofString text').get x).word
  tidy := Token.plain
  Failures := Eq
  Errors e e' := e.unplaced = e'.unplaced
  failures_initial := rfl
  first_regular := Lexemes.ofString_regular text located
  second_regular := Lexemes.ofString_regular text' located
  accepts_eq _ h t := Terminal.accepts_of_word h t
  tidy_eq _ h := congrArg (fun w : LexemeKind × String => Token.mk w.2 "") h
  note := Failure.note_congr
  tooDeep _ := Error.unplaced_nestingTooDeep _ _
  forbidden _ := Error.unplaced_invalidSwitchBody _ _

/-- A source is read to its end, or up to a switch with a body it may not have, or until it is
nested too deeply. -/
theorem Start.outcome_error {start : Start} {text : String} {located : Bool} {e : Error}
    (h : start.outcome ⟨Lexemes.ofString text, located⟩ = .error e) :
    (∃ span, e = .invalidSwitchBody span) ∨ ∃ span, e = .nestingTooDeep span := by
  have hadvances := start.outcome_advances (Alignment.ofSources text text located)
  rw [show start.outcome (Alignment.ofSources text text located).first = .error e from h]
    at hadvances
  cases hadvances with
  | error hhalts =>
    cases e with
    | invalidSwitchBody span => exact .inl ⟨span, rfl⟩
    | nestingTooDeep span => exact .inr ⟨span, rfl⟩
    | _ => cases hhalts

end ShaderSource
