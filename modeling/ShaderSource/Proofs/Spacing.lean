import ShaderSource.Proofs.Yield

/-!
# Numbers stand before marks

In a source that can be read, what comes behind a number is a mark or the end: nowhere does the
grammar let a word, a number or a preprocessor line follow one. So a number is never taken apart or
made longer when a name in the source is exchanged for another.

The grammar is checked for it by going through the productions with one bit of knowledge, whether
the lexeme before may be a number. A rule is entered only where it may not; whether it may be so
behind the rule is told for each rule, and has to be what its production yields.

## Main results

* `Derives.spaced`: the lexemes of a derivation are valid, and marks where a number stands before.
* `readTree_separated`: the lexemes of a source that can be read are valid, and its numbers stand
  before marks.
-/

namespace ShaderSource

open Item Option ShaderSource.Parser Terminal

/-! ### Phrases that keep numbers apart -/

/-- Whether a number may be the last lexeme of the rule. -/
def Rule.endsOpen : Rule → Bool
  | .functionPrototype => false
  | .fullySpecifiedType => false
  | .typeSpecifier => false
  | .statement => false
  | .functionCall => false
  | _ => true

/-- Whether the terminal is that of marks. -/
def Terminal.isMark : Terminal → Bool
  | .punct _ => true
  | _ => false

/-- Whether a number may be the lexeme before, behind the terminal; none if the terminal may follow
a number and is no mark. -/
def Terminal.spaced (t : Terminal) (pending : Bool) : Option Bool :=
  if pending && !t.isMark then none else some (t == .literal)

/-- Either way, where both are possible. -/
def eitherWay : Option Bool → Option Bool → Option Bool
  | some a, some b => some (a || b)
  | _, _ => none

mutual

/-- Whether a number may be the lexeme before, behind the phrase, given whether it may be so in
front of it; none if the phrase lets anything but a mark follow a number. -/
def Phrase.spaced (pending : Bool) : Phrase → Option Bool
  | .node _ items => Item.spacedAll pending items
  | .rule r => if pending then none else some r.endsOpen
  | .initializer => if pending then none else some true
  | .orElse first second => eitherWay (first.spaced pending) (second.spaced pending)
  | .choose _ _ yes no => eitherWay (yes.spaced pending) (no.spaced pending)
  | .refuse _ => some false
  | .suffixed first _ suffixes =>
    if (first.spaced pending).isSome && Suffix.spacedAll suffixes then some true else none
  | .joined _ item => if pending then none else item.spaced false

/-- Whether all suffixes begin with a mark and keep numbers apart. -/
def Suffix.spacedAll : List Suffix → Bool
  | [] => true
  | .mk _ items follow :: others =>
    (Item.spacedAll true items).isSome && Suffix.spacedAll follow && Suffix.spacedAll others

/-- The same as for phrases, for items that follow each other. -/
def Item.spacedAll (pending : Bool) : List Item → Option Bool
  | [] => some pending
  | item :: items =>
    match item.spaced pending with
    | none => none
    | some between => Item.spacedAll between items

/-- The same as for phrases, for an item. -/
def Item.spaced (pending : Bool) : Item → Option Bool
  | .token t => t.spaced pending
  | .presentToken t => t.spaced pending
  | .child p => p.spaced pending
  | .present p => p.spaced pending
  | .optional p => eitherWay (p.spaced pending) (some pending)
  | .list _ p => if !pending && p.spaced false == some false then some false else none
  | .separated _ p => if pending then none else p.spaced false
  | .single p => p.spaced pending
  | .branch t p => if pending || t == .literal then none else p.spaced false
  | .empty _ => some pending
  | .choose _ _ yes no => eitherWay (Item.spacedAll pending yes) (Item.spacedAll pending no)
  | .forbid _ _ => some pending

end

theorem Grammar.production_spaced (r : Rule) :
    ∃ a, (production r).spaced false = some a ∧ (a = true → r.endsOpen = true) := by
  cases r with
  | binary level => exact ⟨true, rfl, fun _ => rfl⟩
  | functionPrototype | fullySpecifiedType | typeSpecifier | statement | functionCall =>
    exact ⟨false, by decide +kernel, by simp⟩
  | _ => exact ⟨true, by decide +kernel, fun _ => rfl⟩

theorem Grammar.initializer_spaced : initializer.spaced false = some true := by
  decide +kernel

theorem Grammar.externalDeclaration_spaced : externalDeclaration.spaced false = some false := by
  decide +kernel

/-! ### Derivations that keep numbers apart -/

section Input

variable (input : Input)

/-- The lexeme before the place is a number. -/
def Input.BehindNumber (i : Nat) : Prop :=
  ∃ k, i = k + 1 ∧ (input.lexeme k).kind.isNumber = true

/-- The lexemes from one place to before another are valid, and marks where a number stands
before. -/
def Input.Apart (i j : Nat) : Prop :=
  ∀ k, i ≤ k → k < j → (input.lexeme k).kind ≠ .invalid ∧
    (input.BehindNumber k → (input.lexeme k).kind = .punctuation)

/-- If a number may stand before the first place only as told by `before`, then the lexemes up to
the second keep numbers apart, and a number may stand before that only as told by `behind`. -/
def Input.Passes (i j : Nat) (before behind : Bool) : Prop :=
  (input.BehindNumber i → before = true) →
    input.Apart i j ∧ (input.BehindNumber j → behind = true)

variable {input} {i k j : Nat} {before between behind : Bool}

theorem Input.Apart.trans (h : input.Apart i k) (h' : input.Apart k j) : input.Apart i j := by
  intro l hil hlj
  by_cases hlk : l < k
  · exact h l hil hlk
  · exact h' l (Nat.le_of_not_lt hlk) hlj

theorem Input.Passes.trans (h : input.Passes i k before between)
    (h' : input.Passes k j between behind) : input.Passes i j before behind := by
  intro hbefore
  obtain ⟨hik, hbetween⟩ := h hbefore
  obtain ⟨hkj, hbehind⟩ := h' hbetween
  exact ⟨hik.trans hkj, hbehind⟩

theorem Input.Passes.mono (h : input.Passes i j before between)
    (hmono : between = true → behind = true) : input.Passes i j before behind := by
  intro hbefore
  obtain ⟨hij, hbetween⟩ := h hbefore
  exact ⟨hij, fun hj => hmono (hbetween hj)⟩

theorem Input.passes_self (i : Nat) (before : Bool) : input.Passes i i before before :=
  fun hbefore => ⟨fun _ hil hli => absurd hil (Nat.not_le.mpr hli), hbefore⟩

/-- A number stands behind the lexeme of a terminal only if the terminal is that of literals. -/
theorem Input.passes_token {t : Terminal} (haccepts : t.accepts (input.lexeme i) = true)
    (h : t.spaced before = some behind) : input.Passes i (i + 1) before behind := by
  simp only [Terminal.spaced, ite_none_left_eq_some, some.injEq] at h
  obtain ⟨hmark, rfl⟩ := h
  intro hbefore
  constructor
  · intro k hik hki
    obtain rfl : k = i := by omega
    constructor
    · intro hkind
      cases t <;> simp [accepts, isKeyword, hkind] at haccepts
    · intro hnumber
      rw [hbefore hnumber] at hmark
      cases t <;> simp_all [isMark, accepts]
  · rintro ⟨k, hk, hnumber⟩
    obtain rfl : i = k := by omega
    rw [beq_iff_eq]
    cases t <;> cases hkind : (input.lexeme i).kind <;>
      simp_all [accepts, isKeyword, LexemeKind.isNumber]

end Input

theorem eitherWay_eq_some {a b : Option Bool} {c : Bool} (h : eitherWay a b = some c) :
    ∃ x y, a = some x ∧ b = some y ∧ (x = true → c = true) ∧ (y = true → c = true) := by
  cases a <;> cases b
  case some.some x y =>
    obtain rfl : (x || y) = c := some.inj h
    exact ⟨x, y, rfl, rfl, fun hx => by simp [hx], fun hy => by simp [hy]⟩
  all_goals cases h

/-- What a judgement says about the lexemes it covers, if what it is about keeps numbers apart. -/
def Judgement.Spaced (input : Input) (i j : Nat) : Judgement → Prop
  | .node p _ =>
    ∀ before behind, p.spaced before = some behind → input.Passes i j before behind
  | .suffix ss _ _ _ | .suffixes ss _ _ _ _ =>
    Suffix.spacedAll ss = true → input.Passes i j true true
  | .parts items _ =>
    ∀ before behind, spacedAll before items = some behind → input.Passes i j before behind
  | .item it _ =>
    ∀ before behind, it.spaced before = some behind → input.Passes i j before behind
  | .list p _ => p.spaced false = some false → input.Passes i j false false
  | .tail p _ => ∀ behind, p.spaced false = some behind → input.Passes i j behind behind

/-- Derivations from phrases that keep numbers apart keep them apart. -/
theorem Derives.spaced {input : Input} {J : Judgement} {i j : Nat} (h : Derives input J i j) :
    J.Spaced input i j := by
  have hcomma : ∀ {k : Nat} (before : Bool),
      (Terminal.punct [","]).accepts (input.lexeme k) = true →
      input.Passes k (k + 1) before false :=
    fun before haccepts => Input.passes_token haccepts (by simp [Terminal.spaced, Terminal.isMark])
  induction h with
  | node _ ih => exact ih
  | @rule r _ _ _ _ ih =>
    intro before behind hspaced
    simp only [Phrase.spaced, ite_none_left_eq_some, some.injEq] at hspaced
    obtain ⟨hbefore, rfl⟩ := hspaced
    obtain ⟨a, ha, hmono⟩ := Grammar.production_spaced r
    rw [Bool.not_eq_true] at hbefore
    subst hbefore
    exact (ih _ _ ha).mono hmono
  | initializer _ ih =>
    intro before behind hspaced
    simp only [Phrase.spaced, ite_none_left_eq_some, some.injEq,
      Bool.not_eq_true] at hspaced
    obtain ⟨rfl, rfl⟩ := hspaced
    exact ih _ _ Grammar.initializer_spaced
  | first _ ih | yes _ ih | optional _ ih =>
    intro before behind hspaced
    obtain ⟨x, y, hx, -, hmono, -⟩ := eitherWay_eq_some hspaced
    exact (ih _ _ hx).mono hmono
  | second _ ih | no _ ih =>
    intro before behind hspaced
    obtain ⟨x, y, -, hy, -, hmono⟩ := eitherWay_eq_some hspaced
    exact (ih _ _ hy).mono hmono
  | suffixed _ _ _ ihhead ihsuffixes =>
    intro before behind hspaced
    simp only [Phrase.spaced, ite_none_right_eq_some, some.injEq,
      Bool.and_eq_true, isSome_iff_exists] at hspaced
    obtain ⟨⟨⟨a, ha⟩, hsuffixes⟩, rfl⟩ := hspaced
    exact ((ihhead _ _ ha).mono fun _ => rfl).trans (ihsuffixes hsuffixes)
  | alone _ ih =>
    intro before behind hspaced
    simp only [Phrase.spaced, ite_none_left_eq_some, Bool.not_eq_true] at hspaced
    obtain ⟨rfl, hspaced⟩ := hspaced
    exact ih _ _ hspaced
  | joined _ _ _ ihn ihrest =>
    intro before behind hspaced
    simp only [Phrase.spaced, ite_none_left_eq_some, Bool.not_eq_true] at hspaced
    obtain ⟨rfl, hspaced⟩ := hspaced
    exact (ihn _ _ hspaced).trans (ihrest _ hspaced)
  | suffix _ ih =>
    intro hspaced
    simp only [Suffix.spacedAll, Bool.and_eq_true, isSome_iff_exists] at hspaced
    obtain ⟨⟨⟨a, ha⟩, -⟩, -⟩ := hspaced
    exact (ih _ _ ha).mono fun _ => rfl
  | follow _ _ ihps ihn =>
    intro hspaced
    simp only [Suffix.spacedAll, Bool.and_eq_true, isSome_iff_exists] at hspaced
    obtain ⟨⟨⟨a, ha⟩, hfollow⟩, -⟩ := hspaced
    exact ((ihps _ _ ha).mono fun _ => rfl).trans (ihn hfollow)
  | @other suffix _ _ _ _ _ _ _ ih =>
    intro hspaced
    cases suffix
    simp only [Suffix.spacedAll, Bool.and_eq_true] at hspaced
    exact ih hspaced.2
  | stop | listNil =>
    intro _
    exact Input.passes_self _ _
  | more _ _ ihmid ihn =>
    intro hspaced
    exact (ihmid hspaced).trans (ihn hspaced)
  | nil =>
    intro before behind hspaced
    obtain rfl : before = behind := by simpa [Item.spacedAll] using hspaced
    exact Input.passes_self _ _
  | cons _ _ ihps ihqs =>
    intro before behind hspaced
    rw [Item.spacedAll] at hspaced
    split at hspaced
    · cases hspaced
    · exact (ihps _ _ ‹_›).trans (ihqs _ _ hspaced)
  | token haccepts | presentToken haccepts =>
    intro before behind hspaced
    exact Input.passes_token haccepts hspaced
  | child _ ih | present _ ih | single _ ih => exact ih
  | absent =>
    intro before behind hspaced
    obtain ⟨x, y, -, hy, -, hmono⟩ := eitherWay_eq_some hspaced
    obtain rfl : before = y := some.inj hy
    exact (Input.passes_self _ _).mono hmono
  | list _ _ ih =>
    intro before behind hspaced
    simp only [Item.spaced, ite_none_right_eq_some, some.injEq, Bool.and_eq_true,
      Bool.not_eq_true', beq_iff_eq] at hspaced
    obtain ⟨⟨rfl, hp⟩, rfl⟩ := hspaced
    exact ih hp
  | separated _ _ ihn ihrest =>
    intro before behind hspaced
    simp only [Item.spaced, ite_none_left_eq_some, Bool.not_eq_true] at hspaced
    obtain ⟨rfl, hspaced⟩ := hspaced
    exact (ihn _ _ hspaced).trans (ihrest _ hspaced)
  | trailing _ _ haccepts ihn ihrest =>
    intro before behind hspaced
    simp only [Item.spaced, ite_none_left_eq_some, Bool.not_eq_true] at hspaced
    obtain ⟨rfl, hspaced⟩ := hspaced
    exact ((ihn _ _ hspaced).trans (ihrest _ hspaced)).trans
      ((hcomma _ haccepts).mono (by simp))
  | none _ =>
    intro before behind hspaced
    simp only [Item.spaced, ite_none_left_eq_some, Bool.not_eq_true] at hspaced
    obtain ⟨rfl, -⟩ := hspaced
    exact (Input.passes_self _ _).mono (by simp)
  | branch haccepts _ ih =>
    intro before behind hspaced
    simp only [Item.spaced, ite_none_left_eq_some, Bool.or_eq_true, not_or,
      Bool.not_eq_true] at hspaced
    obtain ⟨⟨rfl, hliteral⟩, hspaced⟩ := hspaced
    have htoken : input.Passes _ _ false false :=
      Input.passes_token haccepts (by simp [Terminal.spaced, hliteral])
    exact htoken.trans (ih _ _ hspaced)
  | empty | forbid =>
    intro before behind hspaced
    obtain rfl : before = behind := by simpa [Item.spaced] using hspaced
    exact Input.passes_self _ _
  | itemsYes _ ih =>
    intro before behind hspaced
    obtain ⟨x, y, hx, -, hmono, -⟩ := eitherWay_eq_some hspaced
    exact (ih _ _ hx).mono hmono
  | itemsNo _ ih =>
    intro before behind hspaced
    obtain ⟨x, y, -, hy, -, hmono⟩ := eitherWay_eq_some hspaced
    exact (ih _ _ hy).mono hmono
  | listCons _ _ ihn ihns =>
    intro hspaced
    exact (ihn _ _ hspaced).trans (ihns hspaced)
  | tailNil =>
    intro behind _
    exact Input.passes_self _ _
  | tailCons haccepts _ _ ihn ihrest =>
    intro behind hspaced
    exact ((hcomma _ haccepts).trans (ihn _ _ hspaced)).trans (ihrest _ hspaced)

/-! ### Whole sources -/

/-- The lexemes of a source that can be read are valid, and its numbers stand before marks. -/
theorem readTree_separated {start : Start} {text : String} {located : Bool}
    {source : Option String} {root : Node}
    (h : readTree start ⟨Lexemes.ofString text, located⟩ source = .ok root) :
    Scan.Separated (Lexemes.ofString text).body.toList := by
  obtain ⟨ns, j, -, hns, hend, hone⟩ := readTree_sound h
  have hpasses : ∃ behind, Input.Passes ⟨Lexemes.ofString text, located⟩ 0 j false behind := by
    by_cases hstart : start = .translationUnit
    · subst hstart
      exact ⟨false, hns.spaced Grammar.externalDeclaration_spaced⟩
    · obtain ⟨n, rfl⟩ := hone hstart
      cases hns with
      | listCons hn hnil =>
        cases hnil
        have hspaced : ∃ behind, start.phrase.spaced false = some behind :=
          isSome_iff_exists.mp (by cases start <;> decide +kernel)
        obtain ⟨behind, hbehind⟩ := hspaced
        exact ⟨behind, hn.spaced _ _ hbehind⟩
  obtain ⟨behind, hpasses⟩ := hpasses
  obtain ⟨hapart, -⟩ := hpasses (by rintro ⟨k, hk, -⟩; cases hk)
  have hlexeme : ∀ {k : Nat} {l : Lexeme}, (Lexemes.ofString text).body.toList[k]? = some l →
      k < j ∧ (Lexemes.ofString text).get k = l := by
    intro k l hl
    rw [Array.getElem?_toList] at hl
    have hget : (Lexemes.ofString text).get k = l := by rw [Lexemes.get, hl, getD_some]
    obtain ⟨hk, -⟩ := Array.getElem?_eq_some_iff.mp hl
    exact ⟨Nat.lt_of_lt_of_le hk (Lexemes.size_le_of_isEnd hend), hget⟩
  constructor
  · intro l hl
    obtain ⟨k, hk⟩ := List.mem_iff_getElem?.mp hl
    obtain ⟨hkj, rfl⟩ := hlexeme hk
    exact (hapart k (Nat.zero_le k) hkj).1
  · intro k l m hl hm hnumber
    obtain ⟨-, rfl⟩ := hlexeme hl
    obtain ⟨hkj, rfl⟩ := hlexeme hm
    exact (hapart (k + 1) (Nat.zero_le _) hkj).2 ⟨k, rfl, hnumber⟩

end ShaderSource
