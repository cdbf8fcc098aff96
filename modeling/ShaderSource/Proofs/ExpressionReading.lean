import ShaderSource.Proofs.Expressions

/-!
# Reading expressions

Wherever the tokens of an expression stand, the rules of the grammar that may read it do, and the
tree that is read has its content. The grammar tries its alternatives in order, so a rule is also
followed where it fails: an operand is taken for a call first, a condition for an assignment, and
the dimensions behind a name for those of a type.

Rules nest from the loosest to the tightest. An expression is therefore read once in the tightest
place in which it may stand, and from there in all looser ones, as long as what stands behind it
does not continue it.

## Main results

* `Node.Parses.of_operates`, `Node.Parses.of_unary`, `Node.Parses.of_spanned`: what is read in a
  tight place is read in the looser ones.
* `Node.IsExpression.parses`: expressions are read where their tokens stand.
-/

namespace ShaderSource

open Grammar Input Kind Lexeme List ShaderSource.Parser ShaderSource.Part Terminal

variable {level : Fin 11} {commas ts : List Token} {first : Node} {items : List Node}
  {opening closing t dot name : Token}

variable {input : Input} {i j k : Nat}

theorem Parser.looksAt_one (t : Terminal) :
    looksAt input i [t] = t.accepts (input.lexeme i) := by
  simp [looksAt]

namespace Phrase.ComesTo

variable {p q : Phrase} {o : Option (Node × Nat)} {t : Terminal} {noted : List String}

theorem choose_yes (ht : t.accepts (input.lexeme i) = true) (h : p.ComesTo input i o) :
    (Phrase.choose [t] noted p q).ComesTo input i o := by
  refine .choose ?_
  rwa [looksAt_one, if_pos ht]

theorem choose_no (ht : t.accepts (input.lexeme i) = false) (h : q.ComesTo input i o) :
    (Phrase.choose [t] noted p q).ComesTo input i o := by
  refine .choose ?_
  rwa [looksAt_one, ht, if_neg Bool.false_ne_true]

end Phrase.ComesTo

/-! ### What no expression begins with -/

namespace Grammar

open Phrase.ComesTo Item.ComesTo Item.Yields

/-- No type begins with something that is not a word. -/
theorem typeSpecifier_none (hidentifier : (input.lexeme i).kind ≠ .identifier)
    (hkeyword : isKeyword (input.lexeme i).kind = false) :
    (Phrase.rule .typeSpecifier).ComesTo input i none := by
  have htype : (Terminal.keywordOf .type).accepts (input.lexeme i) = false := by
    cases hkind : (input.lexeme i).kind <;> simp_all [accepts, isKeyword]
  have hname : Terminal.identifier.accepts (input.lexeme i) = false := by
    simpa [accepts] using hidentifier
  have hstruct : (Terminal.keyword ["struct"]).accepts (input.lexeme i) = false := by
    simp [accepts, hkeyword]
  exact .rule (.node_none (.cons_none (.child_none
    (.choose_no htype (.choose_no hname (.choose_no hstruct (.refuse _ i))))) _))

theorem functionCall_none (h : (Phrase.rule .typeSpecifier).ComesTo input i none) :
    (Phrase.rule .functionCall).ComesTo input i none :=
  .rule (.node_none (.cons_none (.child_none h) _))

/-- The lexeme is a mark that no expression begins with. -/
structure Bars (l : Lexeme) : Prop where
  kind : l.kind = .punctuation
  operator : (Terminal.punct unaryOperators).accepts l = false
  opening : (Terminal.punct ["("]).accepts l = false

theorem Bars.of_punct {marks : List String} {l : Lexeme}
    (h : (Terminal.punct marks).accepts l = true)
    (hmarks : (marks.all fun m => !("(" :: unaryOperators).contains m) = true) : Bars l := by
  have hmark : ∀ m ∈ marks, m ∉ "(" :: unaryOperators := fun m hm => by
    simpa using all_eq_true.mp hmarks m hm
  exact ⟨kind_of_punct h,
    refuses_of_disjoint h fun m hm hmem => hmark m hm (mem_cons_of_mem _ hmem),
    refuses_of_disjoint h fun m hm hmem => hmark m hm
      (mem_singleton.mp hmem ▸ mem_cons_self)⟩

theorem unary_none (h : Bars (input.lexeme i)) : (Phrase.rule .unary).ComesTo input i none := by
  have hidentifier : Terminal.identifier.accepts (input.lexeme i) = false := by
    simp [accepts, h.kind]
  have hliteral : Terminal.literal.accepts (input.lexeme i) = false := by
    simp [accepts, h.kind]
  have hprimary : (Phrase.rule .primary).ComesTo input i none :=
    .rule (.choose_no hidentifier (.choose_no hliteral (.choose_no h.opening (.refuse _ i))))
  have hcall : (Phrase.rule .functionCall).ComesTo input i none :=
    functionCall_none (typeSpecifier_none (by simp [h.kind]) (by rw [h.kind]; rfl))
  exact .rule (.choose_no h.operator (.rule (.suffixed_none (.orElse_none hcall hprimary))))

theorem operand_castSucc (level : Fin 10) : operand level.castSucc = .binary level.succ := by
  revert level
  decide

theorem operand_none (h : Bars (input.lexeme i)) (level : Fin 11) :
    (Phrase.rule (operand level)).ComesTo input i none := by
  induction level using Fin.reverseInduction with
  | last => exact unary_none h
  | cast level ih =>
    rw [operand_castSucc]
    exact .rule (.suffixed_none ih)

theorem assignment_none (h : Bars (input.lexeme i)) :
    (Phrase.rule .assignment).ComesTo input i none :=
  .rule (.orElse_none (.node_none (.cons_none (.child_none (unary_none h)) _))
    (.rule (.suffixed_none (.rule (.suffixed_none (operand_none h 0))))))

theorem expression_none (h : Bars (input.lexeme i)) :
    (Phrase.rule .expression).ComesTo input i none :=
  .rule (.joined_none (assignment_none h))

/-! ### Calls -/

theorem arraySpecifier_none (h : input.Lacks ["["] i) :
    arraySpecifier.ComesTo input i none :=
  .node_none (.cons_none (.token_none h) _)

section Dimensions

variable {ns : List Node} (hname : Terminal.identifier.accepts (input.lexeme i) = true)
  (hchain : arraySpecifier.Chain input (i + 1) ns j) (hlength : ns.length ≤ input.bound)

include hname hchain hlength

/-- A name with dimensions, as a type. -/
theorem typeSpecifier_name (hend : input.Lacks ["["] j) :
    (Phrase.rule .typeSpecifier).ComesTo input i
      (some (.mk .typeSpecifier NodeId.detached (input.nodeSpan i j)
        [.child (.mk .typeName NodeId.detached (input.nodeSpan i (i + 1))
          [.token (input.lexeme i).token]), .list ns], j)) := by
  have htype : (Terminal.keywordOf .type).accepts (input.lexeme i) = false := by
    simp [accepts, kind_of_identifier hname]
  exact .rule (.node (.cons (.child (.choose_no htype (.choose_yes hname
    (.node (.cons (.token hname) (.nil _))))))
    (.cons (.list hchain hlength (arraySpecifier_none hend))
      (.nil _))))

/-- A name with dimensions is not called if no parenthesis follows. -/
theorem functionCall_none_of_chain (hbracket : input.Lacks ["["] j)
    (hparenthesis : input.Lacks ["("] j) :
    (Phrase.rule .functionCall).ComesTo input i none :=
  .rule (.node_none (.cons (.child (typeSpecifier_name hname hchain hlength hbracket))
    (.cons_none (.token_none hparenthesis) _)))

end Dimensions

/-- A name and arguments are a call. -/
theorem functionCall_name {ps : List Part}
    (hname : Terminal.identifier.accepts (input.lexeme i) = true)
    (hopening : (Terminal.punct ["("]).accepts (input.lexeme (i + 1)) = true)
    (harguments : Item.ComesTo arguments input (i + 1) (some (ps, j))) :
    (Phrase.rule .functionCall).ComesTo input i
      (some (.mk .functionCall NodeId.detached (input.nodeSpan i j)
        (.child (PlainCallee.node ⟨NodeId.detached, input.nodeSpan i (i + 1), NodeId.detached,
          input.nodeSpan i (i + 1), (input.lexeme i).token⟩) :: ps), j)) :=
  .rule (.node (.cons (.child (typeSpecifier_name hname .nil (Nat.zero_le _)
    (refuses_of_disjoint hopening (by decide)))) harguments))

/-- What may stand behind an operand. -/
def suffixes : List Suffix :=
  [.mk .postfixExpr [.child arraySpecifier] [],
    .mk .postfixExpr [.child (.node .postfixOperator [.token (.punct stepOperators)])] [],
    .mk .postfixExpr [.child fieldSelection] [.mk .functionCall arguments []]]

/-- Nothing that stands behind an operand follows. -/
theorem suffixes_none (h : (input.lexeme j).EndsFrom 14) (start : Nat) (head : Node) :
    Suffix.ComesTo suffixes input start head j none := by
  have hmarks : ∀ {marks : List String},
      (marks.all (["[", "(", "++", "--", "."].contains ·)) = true →
      input.Lacks marks j := by
    intro marks hall
    refine refuses_of_subset (h.refuses 14 rfl (Nat.le_refl _)) fun m hm => ?_
    simpa using all_eq_true.mp hall m hm
  have hnode : ∀ {kind : Kind} {marks : List String} (items : List Item),
      (marks.all (["[", "(", "++", "--", "."].contains ·)) = true →
      (Phrase.node kind (.token (.punct marks) :: items)).ComesTo input j none :=
    fun items hall => .node_none (.cons_none (.token_none (hmarks hall)) items)
  exact .other (.cons_none (.child_none (arraySpecifier_none (hmarks (by decide)))) _)
    (.other (.cons_none (.child_none (hnode _ (by decide))) _)
      (.other (.cons_none (.child_none (hnode _ (by decide))) _) (.nil _ _ _)))

/-- Nothing is called where no parenthesis is. -/
theorem arguments_none (h : input.Lacks ["("] j) (start : Nat)
    (head : Node) : Suffix.ComesTo [.mk .functionCall arguments []] input start head j none :=
  .other (.cons_none (.token_none h) _) (.nil _ _ _)

end Grammar

/-! ### Reading an expression -/

/-- The phrase reads the expression at the places from `i` to `j`. -/
def Node.ReadBy (e : Node) (input : Input) (p : Phrase) (i j : Nat) : Prop :=
  ∃ n, p.ComesTo input i (some (n, j)) ∧ n.content = e.erase

/-- The phrase reads the innermost node of the expression, and the suffixes take it on to the whole
of it. -/
def Node.SpannedBy (e : Node) (input : Input) (p : Phrase) (ss : List Suffix) (i j : Nat) : Prop :=
  ∃ head k count n, p.ComesTo input i (some (head, k)) ∧
    Suffix.Steps ss input i count head k n j ∧ count ≤ e.tokens.length ∧ n.content = e.erase

/-- An operand, and not the left side of an assignment, stands at the place. -/
def Input.Heads (input : Input) (i : Nat) : Prop :=
  ∃ n k, (Phrase.rule .unary).ComesTo input i (some (n, k)) ∧
    input.Lacks assignmentOperators k

/-- A name with any number of indices. Up to a parenthesis it reads like the type of a call. -/
inductive Node.IsDimensioned : Node → Prop
  | name {id : NodeId} {span : Option Span} {ps : List Part} :
      IsDimensioned (.mk .identifier id span ps)
  | index {id : NodeId} {span : Option Span} {e s : Node} :
      IsDimensioned e → s.kind = .arraySpecifier →
      IsDimensioned (.mk .postfixExpr id span [.child e, .child s])

/-- How an operand is read. -/
structure Node.Operates (e : Node) (input : Input) : Prop where
  noOperator : ∀ {i j}, input.Path i e.tokens j →
    input.Lacks Grammar.unaryOperators i
  dimensions : e.IsDimensioned → ∀ {i j}, input.Path i e.tokens j →
    Terminal.identifier.accepts (input.lexeme i) = true ∧
      ∃ ns, Grammar.arraySpecifier.Chain input (i + 1) ns j ∧ ns.length ≤ e.tokens.length
  spanned : ∀ {i j}, input.Path i e.tokens j →
    input.Lacks ["("] j →
    (e.IsDimensioned → (Phrase.rule .functionCall).ComesTo input i none) →
    e.SpannedBy input (.orElse (.rule .functionCall) (.rule .primary)) Grammar.suffixes i j

/-- The operations of a level. -/
def Grammar.operation (level : Fin 11) : List Suffix :=
  [.mk .binary [.token (.punct (binaryOperators level)), .child (.rule (operand level))] []]

/-- The expression begins with none of the words of the language. -/
abbrev Node.Wordless (e : Node) (input : Input) : Prop :=
  ∀ {i j}, input.Path i e.tokens j → isKeyword (input.lexeme i).kind = false

/-- The phrase reads the expression wherever none of the marks from a level on follows it. -/
abbrev Node.Reads (e : Node) (input : Input) (level : Nat) (p : Phrase) : Prop :=
  ∀ {i j}, input.Path i e.tokens j → (input.lexeme j).EndsFrom level → e.ReadBy input p i j

/-- How an expression is read, in each place where the grammar admits it. -/
structure Node.Parses (e : Node) (input : Input) : Prop where
  wordless : e.Wordless input
  operates : e.kind ∈ operands → e.Operates input
  unary : e.kind ∈ unaries → e.Reads input 14 (.rule .unary)
  heads : e.kind ∈ ternaries → ∀ {i j}, input.Path i e.tokens j →
    (input.lexeme j).EndsFrom 14 →
    input.Lacks assignmentOperators j → input.Heads i
  spanned : ∀ level : Fin 11, e.BindsFrom level → ∀ {i j}, input.Path i e.tokens j →
    (input.lexeme j).EndsFrom (level + 4) →
    e.SpannedBy input (.rule (Grammar.operand level)) (operation level) i j
  assignment : e.kind ≠ .sequence → e.Reads input 1 (.rule .assignment)
  expression : e.Reads input 0 (.rule .expression)

variable {e : Node}

theorem Node.ReadBy.spannedBy {p : Phrase} (h : e.ReadBy input p i j) (ss : List Suffix) :
    e.SpannedBy input p ss i j := by
  obtain ⟨n, hn, hcontent⟩ := h
  exact ⟨n, j, 0, n, hn, .refl, Nat.zero_le _, hcontent⟩

namespace Node.SpannedBy

/-- An expression to which no suffix can be added is read with its suffixes. -/
theorem readBy {p : Phrase} {ss : List Suffix} (h : e.SpannedBy input p ss i j)
    (hpath : input.Path i e.tokens j)
    (hend : ∀ n, Suffix.ComesTo ss input i n j none) :
    e.ReadBy input (.suffixed p true ss) i j := by
  obtain ⟨head, k, count, n, hhead, hsteps, hcount, hcontent⟩ := h
  exact ⟨n, .suffixed hhead hsteps (Nat.le_trans hcount hpath.length_le) (.inr (hend n)), hcontent⟩

theorem readBy_binary
    (h : e.SpannedBy input (.rule (Grammar.operand level)) (operation level) i j)
    (hpath : input.Path i e.tokens j) (hend : input.Lacks (Grammar.binaryOperators level) j) :
    e.ReadBy input (.rule (.binary level)) i j := by
  obtain ⟨n, hn, hcontent⟩ := h.readBy hpath fun n =>
    .other (.cons_none (.token_none hend) _) (.nil _ _ _)
  exact ⟨n, .rule hn, hcontent⟩

end Node.SpannedBy

theorem Grammar.continuations_level (level : Fin 11) :
    continuations[level.val + 3]? = some (binaryOperators level) := by
  revert level
  decide

/-- What is read around operators of a level is read around those of looser levels. -/
theorem Node.SpannedBy.loosen {level' : Fin 11} (hle : level ≤ level')
    (h : e.SpannedBy input (.rule (Grammar.operand level')) (operation level') i j)
    (hpath : input.Path i e.tokens j) (hend : (input.lexeme j).EndsFrom (level + 4)) :
    e.SpannedBy input (.rule (Grammar.operand level)) (operation level) i j := by
  induction level' using Fin.induction with
  | zero =>
    obtain rfl : level = 0 := Fin.le_zero_iff.mp hle
    exact h
  | succ level' ih =>
    by_cases hsame : level = level'.succ
    · subst hsame
      exact h
    · have hlt : level.val < level'.val + 1 := by
        have hne : level.val ≠ level'.val + 1 := fun heq => hsame (Fin.ext heq)
        have hval : level.val ≤ level'.val + 1 := hle
        omega
      refine ih (Fin.le_def.mpr (by simpa using Nat.lt_succ_iff.mp hlt)) ?_
      have hread := h.readBy_binary hpath
        (hend.refuses _ (continuations_level level'.succ) (by simp; omega))
      rw [operand_castSucc]
      exact hread.spannedBy _

namespace Node.ReadBy

/-- A condition that nothing is asked of is read as what it is. -/
theorem ternary (h : e.ReadBy input (.rule (.binary 0)) i j) (hend : input.Lacks ["?"] j) :
    e.ReadBy input (.rule .ternary) i j := by
  obtain ⟨n, hn, hcontent⟩ := h
  exact ⟨n, .rule (.suffixed hn .refl (Nat.zero_le _)
    (.inr (.other (.cons_none (.token_none hend) _) (.nil _ _ _)))), hcontent⟩

/-- What is no assignment is read where one may stand. -/
theorem assignment (h : e.ReadBy input (.rule .ternary) i j) (hheads : input.Heads i) :
    e.ReadBy input (.rule .assignment) i j := by
  obtain ⟨n, hn, hcontent⟩ := h
  obtain ⟨m, k, hm, hoperator⟩ := hheads
  exact ⟨n, .rule (.orElse_none (.node_none (.cons (.child hm)
    (.cons_none (.token_none hoperator) _))) hn), hcontent⟩

/-- What is no sequence is read where one may stand. -/
theorem expression (h : e.ReadBy input (.rule .assignment) i j)
    (hend : (input.lexeme j).EndsFrom 0) : e.ReadBy input (.rule .expression) i j := by
  obtain ⟨n, hn, hcontent⟩ := h
  exact ⟨n, .rule (.joined_one hn (hend.refuses 0 rfl (Nat.le_refl _))), hcontent⟩

end Node.ReadBy

/-! ### From tighter to looser places -/

theorem Node.not_bindsFrom {level : Nat} (hkind : e.kind ∉ unaries) (hlevel : e.level? = none) :
    ¬e.BindsFrom level := by
  rintro (h | ⟨l, hl, -⟩)
  · exact hkind h
  · rw [hlevel] at hl
    cases hl

/-- A name with dimensions is not called if something else follows. -/
theorem Node.Operates.functionCall_none (h : e.Operates input) (hpath : input.Path i e.tokens k)
    (hbracket : input.Lacks ["["] k) (hparenthesis : input.Lacks ["("] k)
    (hdimensioned : e.IsDimensioned) : (Phrase.rule .functionCall).ComesTo input i none := by
  obtain ⟨hname, ns, hchain, hlength⟩ := h.dimensions hdimensioned hpath
  exact functionCall_none_of_chain hname hchain (Nat.le_trans hlength hpath.length_le)
    hbracket hparenthesis

namespace Node.Parses

/-- An expression that is read where an assignment may stand, and is no operand. -/
theorem of_assignment (hbinds : ¬e.BindsFrom 0) (hwordless : e.Wordless input)
    (hheads : e.kind ∈ ternaries → ∀ {i j}, input.Path i e.tokens j → input.Heads i)
    (hassignment : e.Reads input 1 (.rule .assignment)) : e.Parses input where
  wordless := hwordless
  operates hkind := absurd (.inl (mem_cons_of_mem _ hkind)) hbinds
  unary hkind := absurd (.inl hkind) hbinds
  heads hkind _ _ hpath _ _ := hheads hkind hpath
  spanned level h := absurd (h.mono (Nat.zero_le _)) hbinds
  assignment _ := hassignment
  expression hpath hend := (hassignment hpath (hend.mono (by decide))).expression hend

/-- An expression that can be the condition of another one. -/
theorem of_spanned (hwordless : e.Wordless input)
    (hoperates : e.kind ∈ operands → e.Operates input)
    (hunary : e.kind ∈ unaries → e.Reads input 14 (.rule .unary))
    (hheads : ∀ {i j}, input.Path i e.tokens j → (input.lexeme j).EndsFrom 14 →
      input.Lacks assignmentOperators j →
      input.Heads i)
    (hspanned : ∀ level : Fin 11, e.BindsFrom level → ∀ {i j}, input.Path i e.tokens j →
      (input.lexeme j).EndsFrom (level + 4) →
      e.SpannedBy input (.rule (Grammar.operand level)) (operation level) i j)
    (hbinds : e.BindsFrom 0) : e.Parses input := by
  have hassignment : e.Reads input 1 (.rule .assignment) := by
    intro i j hpath hend
    have hbinary := (hspanned 0 hbinds hpath (hend.mono (by decide))).readBy_binary hpath
      (hend.refuses 3 rfl (by decide))
    exact (hbinary.ternary (hend.refuses 2 rfl (by decide))).assignment
      (hheads hpath (hend.mono (by decide)) (hend.refuses 1 rfl (by decide)))
  exact ⟨hwordless, hoperates, hunary, fun _ => hheads, hspanned, fun _ => hassignment,
    fun hpath hend => (hassignment hpath (hend.mono (by decide))).expression hend⟩

/-- An expression that can be the operand of an operator in front of it. -/
theorem of_unary (hkind : e.kind ∈ unaries) (hwordless : e.Wordless input)
    (hoperates : e.kind ∈ operands → e.Operates input)
    (hunary : e.Reads input 14 (.rule .unary)) : e.Parses input := by
  refine of_spanned hwordless hoperates (fun _ => hunary) ?_ ?_ (.inl hkind)
  · intro i j hpath hend hoperator
    obtain ⟨n, hn, -⟩ := hunary hpath hend
    exact ⟨n, j, hn, hoperator⟩
  · intro level _ i j hpath hend
    have hread := hunary hpath (hend.mono (by omega))
    exact SpannedBy.loosen (Fin.le_last level) (hread.spannedBy _) hpath hend

/-- An expression that can stand before a suffix. -/
theorem of_operates (hkind : e.kind ∈ operands) (hwordless : e.Wordless input)
    (h : e.Operates input) : e.Parses input := by
  refine of_unary (mem_cons_of_mem _ hkind) hwordless (fun _ => h) ?_
  intro i j hpath hend
  have hlacks : ∀ m, ["[", "(", "++", "--", "."].contains m = true → input.Lacks [m] j :=
    fun m hm => refuses_of_subset (hend.refuses 14 rfl (Nat.le_refl _)) (by simpa using hm)
  have hspanned := h.spanned hpath (hlacks "(" (by decide))
    (h.functionCall_none hpath (hlacks "[" (by decide)) (hlacks "(" (by decide)))
  obtain ⟨n, hn, hcontent⟩ := hspanned.readBy hpath fun n => suffixes_none hend i n
  exact ⟨n, .rule (.choose_no (h.noOperator hpath) (.rule hn)), hcontent⟩

end Node.Parses

/-! ### Lists with commas -/

/-- Commas between items. -/
theorem Token.Separate.exists_rest (h : Token.Separate commas (first :: items)) :
    ∃ rest : List (Token × Node), Part.separated (first :: items) commas =
        separatedPart first rest ∧
      ∀ a ∈ rest, a.1.Spells (.punct [","]) ∧ a.2 ∈ items := by
  have hlength : commas.length = items.length := by simpa using h.length
  refine ⟨commas.zip items, ?_, fun a ha => ?_⟩
  · rw [separatedPart, map_snd_zip (by omega), map_fst_zip (by omega)]
  · obtain ⟨hcomma, hitem⟩ := of_mem_zip (show (a.1, a.2) ∈ _ from ha)
    exact ⟨h.comma _ hcomma, hitem⟩

/-- What stands behind commas is read up to the end of the list. -/
theorem Node.Parses.tail {rest : List (Token × Node)}
    (hrest : ∀ a ∈ rest, a.1.Spells (.punct [","]) ∧ a.2.Parses input ∧ a.2.kind ≠ .sequence)
    (hpath : input.Path i (tailTokens rest) j) (hend : (input.lexeme j).EndsFrom 1) :
    (input.lexeme i).EndsFrom 1 ∧ ∃ rest', (Phrase.rule .assignment).Tail input i rest' j ∧
      rest'.length ≤ (tailTokens rest).length ∧
      rest'.map (fun a => (a.1, a.2.content)) = rest.map fun a => (a.1, a.2.erase) := by
  induction rest generalizing i with
  | nil =>
    obtain rfl : i = j := hpath
    exact ⟨hend, [], .nil, Nat.le_refl _, rfl⟩
  | cons a rest ih =>
    rw [forall_mem_cons] at hrest
    obtain ⟨⟨hcomma, hparses, hsequence⟩, hrest⟩ := hrest
    rw [show tailTokens (a :: rest) = (a.1 :: a.2.tokens) ++ tailTokens rest by
      simp [tailTokens], path_append] at hpath
    obtain ⟨k, hfirst, hpath⟩ := hpath
    obtain ⟨haccepts, htoken, hfirst⟩ := hcomma.at hfirst
    obtain ⟨hends, rest', htail, hlength, hcontents⟩ := ih hrest hpath
    obtain ⟨n, hn, hcontent⟩ := hparses.assignment hsequence hfirst hends
    refine ⟨endsFrom_of_punct haccepts (by decide), (a.1, n) :: rest', ?_, ?_,
      by simp [hcontent, hcontents]⟩
    · rw [← htoken]
      exact .cons haccepts hn htail
    · simp only [tailTokens, length_cons, length_append]
      omega

/-- The first item of a list stands where the list does. -/
theorem Input.Path.exists_first
    (h : input.Path i (Part.separated (first :: items) commas).tokens j) :
    ∃ k, input.Path i first.tokens k := by
  rw [Part.tokens, Node.separatedTokens, append_assoc] at h
  obtain ⟨k, hfirst, -⟩ := path_append.mp h
  exact ⟨k, hfirst⟩

/-- A list with commas is read item by item. -/
theorem Node.Parses.list (hitems : ∀ a ∈ first :: items, a.Parses input)
    (hsequence : ∀ a ∈ first :: items, a.kind ≠ .sequence)
    (hcommas : Token.Separate commas (first :: items))
    (hpath : input.Path i (Part.separated (first :: items) commas).tokens j)
    (hend : (input.lexeme j).EndsFrom 1) :
    ∃ n k rest, (Phrase.rule .assignment).ComesTo input i (some (n, k)) ∧
      (Phrase.rule .assignment).Tail input k rest j ∧ rest.length ≤ input.bound ∧
      rest.map Prod.fst = commas ∧
      (n :: rest.map Prod.snd).map Node.content = (first :: items).map Node.erase := by
  obtain ⟨rest, hpart, hrest⟩ := hcommas.exists_rest
  rw [hpart, tokens_separatedPart] at hpath
  obtain ⟨k, hfirst, hothers⟩ := path_append.mp hpath
  rw [separatedPart, Part.separated.injEq] at hpart
  obtain ⟨hnodes, hseparators⟩ := hpart
  rw [forall_mem_cons] at hitems hsequence
  obtain ⟨hends, rest', htail, hlength, hcontents⟩ := Node.Parses.tail
    (fun b hb => ⟨(hrest b hb).1, hitems.2 _ (hrest b hb).2, hsequence.2 _ (hrest b hb).2⟩)
    hothers hend
  obtain ⟨n, hn, hcontent⟩ := hitems.1.assignment hsequence.1 hfirst hends
  refine ⟨n, k, rest', hn, htail, Nat.le_trans hlength hothers.length_le, ?_, ?_⟩
  · simpa [hseparators, Function.comp_def] using congrArg (List.map Prod.fst) hcontents
  · rw [map_cons, map_cons, hcontent, (cons.inj hnodes).2]
    simpa [Function.comp_def] using congrArg (List.map Prod.snd) hcontents

/-- The arguments of a call are read up to the closing parenthesis. -/
theorem Grammar.arguments_comesTo (hopening : opening.Spells (.punct ["("]))
    (hitems : ∀ a ∈ items, a.Parses input) (hsequence : ∀ a ∈ items, a.kind ≠ .sequence)
    (hcommas : Token.Separate commas items) (hclosing : closing.Spells (.punct [")"]))
    (hpath : input.Path i (opening :: ((Part.separated items commas).tokens ++ [closing])) j) :
    (Terminal.punct ["("]).accepts (input.lexeme i) = true ∧
      ∃ ns, Item.ComesTo arguments input i
          (some ([.token opening, .separated ns commas, .token closing], j)) ∧
        ns.map Node.content = items.map Node.erase := by
  obtain ⟨haccepts, htoken, hbehind⟩ := hopening.at hpath
  obtain ⟨k, hlisted, hlast⟩ := path_append.mp hbehind
  obtain ⟨haccepts', htoken', hlast⟩ := hclosing.at hlast
  obtain rfl : k + 1 = j := hlast
  refine ⟨haccepts, ?_⟩
  -- It is enough to read the list.
  have hlist : ∀ {part}, isKeyword (input.lexeme (i + 1)).kind = false →
      (Item.separated .zeroOrMore (.rule .assignment)).Yields input (i + 1) (some ([part], k)) →
      Item.ComesTo arguments input i (some ([.token opening, part, .token closing], k + 1)) := by
    intro part hword hpart
    have hlooks : looksAt input (i + 1) [.keyword ["void"], .punct [")"]] = false := by
      simp [looksAt, accepts, hword]
    have hall : Item.ComesTo arguments input i _ := .cons (.token haccepts)
      (.cons (.choose_no hlooks (.cons hpart (.nil _))) (.cons (.token haccepts') (.nil _)))
    simpa [htoken, htoken'] using hall
  cases items with
  | nil =>
    obtain rfl : commas = [] := eq_nil_of_length_eq_zero hcommas.length
    obtain rfl : i + 1 = k := hlisted
    have hbars : Bars (input.lexeme (i + 1)) := .of_punct haccepts' (by decide)
    exact ⟨[], hlist (by rw [hbars.kind]; rfl) (.separated_none (assignment_none hbars)), rfl⟩
  | cons a items =>
    obtain ⟨n, l, rest, hn, htail, hbound, hfst, hcontents⟩ := Node.Parses.list hitems hsequence
      hcommas hlisted (endsFrom_of_punct haccepts' (by decide))
    obtain ⟨_, hfirst⟩ := hlisted.exists_first
    have hread := hlist ((hitems a mem_cons_self).wordless hfirst)
      (.separated hn htail hbound (refuses_of_disjoint haccepts' (by decide)))
    refine ⟨n :: rest.map Prod.snd, ?_, hcontents⟩
    rw [← hfst]
    exact hread

/-- Brackets are read with what stands in them. -/
theorem Grammar.arraySpecifier_comesTo {inner : Option Node}
    (hopening : opening.Spells (.punct ["["])) (hinner : ∀ n, inner = some n → n.Parses input)
    (hclosing : closing.Spells (.punct ["]"]))
    (hpath : input.Path i (opening :: ((Part.optChild inner).tokens ++ [closing])) j) :
    (Terminal.punct ["["]).accepts (input.lexeme i) = true ∧
      ∃ m, arraySpecifier.ComesTo input i
          (some (.mk .arraySpecifier NodeId.detached (input.nodeSpan i j)
            [.token opening, .optChild m, .token closing], j)) ∧
        m.map Node.content = inner.map Node.erase := by
  obtain ⟨haccepts, htoken, hbehind⟩ := hopening.at hpath
  obtain ⟨k, hbetween, hlast⟩ := path_append.mp hbehind
  obtain ⟨haccepts', htoken', hlast⟩ := hclosing.at hlast
  obtain rfl : k + 1 = j := hlast
  refine ⟨haccepts, ?_⟩
  have hread : ∀ {m}, (Item.optional (.rule .expression)).Yields input (i + 1)
        (some ([.optChild m], k)) →
      arraySpecifier.ComesTo input i (some (.mk .arraySpecifier NodeId.detached
        (input.nodeSpan i (k + 1)) [.token opening, .optChild m, .token closing], k + 1)) := by
    intro m hm
    have hall : arraySpecifier.ComesTo input i _ :=
      .node (.cons (.token haccepts) (.cons hm (.cons (.token haccepts') (.nil _))))
    simpa [htoken, htoken'] using hall
  cases inner with
  | none =>
    obtain rfl : i + 1 = k := hbetween
    exact ⟨none, hread (.optional_none (expression_none (.of_punct haccepts' (by decide)))), rfl⟩
  | some e =>
    obtain ⟨n, hn, hcontent⟩ := (hinner e rfl).expression hbetween
      (endsFrom_of_punct haccepts' (by decide))
    exact ⟨some n, hread (.optional hn), by simp [hcontent]⟩

/-! ### Operands -/

theorem Node.BindsFrom.kind_mem {level : Nat} (h : e.BindsFrom level) :
    e.kind ∈ ternaries := by
  rcases h with hkind | ⟨l, hl, -⟩
  · exact mem_cons_of_mem _ (mem_cons_of_mem _ hkind)
  · unfold Node.level? at hl
    split at hl
    · rename_i hkind
      rw [hkind]
      decide
    · cases hl

@[simp] theorem Part.tokens_token (t : Token) : (Part.token t).tokens = [t] := by
  rw [Part.tokens]

@[simp] theorem Part.tokens_child (n : Node) : (Part.child n).tokens = n.tokens := by
  rw [Part.tokens]

/-- A suffix behind an operand. -/
theorem Node.Operates.spannedBy_suffix {e' : Node} (h : e.Operates input)
    (hpath : input.Path i e.tokens k) (hparenthesis : input.Lacks ["("] k)
    (hcall : e.IsDimensioned → (Phrase.rule .functionCall).ComesTo input i none)
    (hlength : e.tokens.length < e'.tokens.length)
    (hstep : ∀ n, n.content = e.erase → ∃ m,
      Suffix.ComesTo Grammar.suffixes input i n k (some (m, j)) ∧ m.content = e'.erase) :
    e'.SpannedBy input (.orElse (.rule .functionCall) (.rule .primary)) Grammar.suffixes i j := by
  obtain ⟨head, l, count, n, hhead, hsteps, hcount, hcontent⟩ :=
    h.spanned hpath hparenthesis hcall
  obtain ⟨m, hm, hcontent'⟩ := hstep n hcontent
  exact ⟨head, l, count + 1, m, hhead, .step hsteps hm, by omega, hcontent'⟩

namespace Node.Parses

variable {id id' id'' : NodeId} {span span' span'' : Option Span}

theorem identifier (ht : t.Spells .identifier) :
    (Node.mk .identifier id span [.token t]).Parses input := by
  refine of_operates (show Kind.identifier ∈ operands by decide) (fun hpath => ?_)
    ⟨fun hpath => ?_, fun _ _ _ hpath => ?_, ?_⟩
  · obtain ⟨haccepts, -⟩ := ht.at hpath
    rw [kind_of_identifier haccepts]
    rfl
  · obtain ⟨haccepts, -⟩ := ht.at hpath
    exact refuses_of_kind (by simp [kind_of_identifier haccepts])
  · obtain ⟨haccepts, -, hpath⟩ := ht.at hpath
    obtain rfl : _ + 1 = _ := hpath
    exact ⟨haccepts, [], .nil, Nat.zero_le _⟩
  · intro i j hpath _ hcall
    obtain ⟨haccepts, htoken, hpath⟩ := ht.at hpath
    obtain rfl : i + 1 = j := hpath
    have hprimary : (Phrase.rule .primary).ComesTo input i _ := .rule (.choose_yes haccepts
      (.node (.cons (.token haccepts) (.nil _))))
    refine ReadBy.spannedBy ⟨_, .orElse_none (hcall .name) hprimary, ?_⟩ _
    simp [content_mk, erase_mk, mapNodes, htoken]

theorem literal (ht : t.Spells .literal) : (Node.mk .literal id span [.token t]).Parses input := by
  have hkinds : ∀ {l : Lexeme}, Terminal.literal.accepts l = true →
      l.kind ≠ .identifier ∧ l.kind ≠ .punctuation ∧ isKeyword l.kind = false := by
    intro l hl
    rcases kind_of_literal hl with hkind | hkind | hkind <;>
      simp [hkind, isKeyword]
  refine of_operates (show Kind.literal ∈ operands by decide) (fun hpath => ?_)
    ⟨fun hpath => ?_, fun hdimensioned => ?_, ?_⟩
  · exact (hkinds (ht.at hpath).1).2.2
  · exact refuses_of_kind (hkinds (ht.at hpath).1).2.1
  · cases hdimensioned
  · intro i j hpath _ _
    obtain ⟨haccepts, htoken, hpath⟩ := ht.at hpath
    obtain rfl : i + 1 = j := hpath
    obtain ⟨hname, -, hkeyword⟩ := hkinds haccepts
    have hcall := functionCall_none (typeSpecifier_none hname hkeyword)
    have hprimary : (Phrase.rule .primary).ComesTo input i _ :=
      .rule (.choose_no (by simpa [accepts] using hname) (.choose_yes haccepts
        (.node (.cons (.token haccepts) (.nil _)))))
    refine ReadBy.spannedBy ⟨_, .orElse_none hcall hprimary, ?_⟩ _
    simp [content_mk, erase_mk, mapNodes, htoken]

theorem group (hopening : opening.Spells (.punct ["("])) (he : e.Parses input)
    (hclosing : closing.Spells (.punct [")"])) :
    (Node.mk .group id span [.token opening, .child e, .token closing]).Parses input := by
  have htokens : (Node.mk .group id span [.token opening, .child e, .token closing]).tokens =
      opening :: (e.tokens ++ [closing]) := by
    simp [tokens_mk]
  refine of_operates (show Kind.group ∈ operands by decide) (fun hpath => ?_)
    ⟨fun hpath => ?_, fun hdimensioned => ?_, ?_⟩
  · rw [kind_of_punct (hopening.at (htokens ▸ hpath)).1]
    rfl
  · exact refuses_of_disjoint (hopening.at (htokens ▸ hpath)).1 (by decide)
  · cases hdimensioned
  · intro i j hpath _ _
    rw [htokens] at hpath
    obtain ⟨haccepts, htoken, hbehind⟩ := hopening.at hpath
    obtain ⟨k, hinner, hlast⟩ := path_append.mp hbehind
    obtain ⟨haccepts', htoken', hlast⟩ := hclosing.at hlast
    obtain rfl : k + 1 = j := hlast
    have hkind := kind_of_punct haccepts
    obtain ⟨n, hn, hcontent⟩ := he.expression hinner
      (endsFrom_of_punct haccepts' (by decide))
    have hcall : (Phrase.rule .functionCall).ComesTo input i none :=
      functionCall_none (typeSpecifier_none (by simp [hkind]) (by rw [hkind]; rfl))
    have hprimary : (Phrase.rule .primary).ComesTo input i _ :=
      .rule (.choose_no (by simp [accepts, hkind])
        (.choose_no (by simp [accepts, hkind]) (.choose_yes haccepts
          (.node (.cons (.token haccepts) (.cons (.child hn) (.cons (.token haccepts')
            (.nil _))))))))
    refine ReadBy.spannedBy ⟨_, .orElse_none hcall hprimary, ?_⟩ _
    simp [content_mk, erase_mk, mapNodes, htoken, htoken', hcontent]

theorem index {opening closing : Token} {inner : Option Node} (he : e.Parses input)
    (hkind : e.kind ∈ operands) (hopening : opening.Spells (.punct ["["]))
    (hinner : ∀ n, inner = some n → n.Parses input) (hclosing : closing.Spells (.punct ["]"])) :
    (Node.mk .postfixExpr id span [.child e, .child (.mk .arraySpecifier id' span'
      [.token opening, .optChild inner, .token closing])]).Parses input := by
  have htokens : (Node.mk .postfixExpr id span [.child e, .child (.mk .arraySpecifier id' span'
      [.token opening, .optChild inner, .token closing])]).tokens =
      e.tokens ++ (opening :: ((Part.optChild inner).tokens ++ [closing])) := by
    simp [tokens_mk]
  have hoperates := he.operates hkind
  refine of_operates (show Kind.postfixExpr ∈ operands by decide) (fun hpath => ?_)
    ⟨fun hpath => ?_, fun hdimensioned i j hpath => ?_, fun {i j} hpath hparenthesis hcall => ?_⟩
  all_goals
    rw [htokens] at hpath
    obtain ⟨k, hpath, hbehind⟩ := path_append.mp hpath
  · exact he.wordless hpath
  · exact hoperates.noOperator hpath
  · obtain ⟨-, m, hm, -⟩ := arraySpecifier_comesTo hopening hinner hclosing hbehind
    cases hdimensioned with
    | index hdimensioned _ =>
      obtain ⟨hname, ns, hchain, hlength⟩ := hoperates.dimensions hdimensioned hpath
      exact ⟨hname, _, hchain.snoc hm, by
        simp only [htokens, length_append, length_cons, length_nil]; omega⟩
  · obtain ⟨hbracket, m, hm, hinner⟩ :=
      arraySpecifier_comesTo hopening hinner hclosing hbehind
    refine hoperates.spannedBy_suffix hpath (refuses_of_disjoint hbracket (by decide))
      (fun hdimensioned => hcall (.index hdimensioned rfl)) (by simp [htokens])
      fun n hcontent => ⟨_, .first (.cons (.child hm) (.nil _)) (.nil _ _ _), ?_⟩
    simp [content_mk, erase_mk, mapNodes, hcontent, hinner]

/-- An operand with a suffix behind it that does not look like a dimension or an argument. -/
theorem of_suffix (ts : List Token) {e' : Node} (he : e.Parses input)
    (hkind : e.kind ∈ operands) (hkind' : e'.kind ∈ operands)
    (htokens : e'.tokens = e.tokens ++ ts) (hne : ts ≠ []) (hdimensioned : ¬e'.IsDimensioned)
    (hfirst : ∀ {k j}, input.Path k ts j →
      input.Lacks ["[", "("] k)
    (hstep : ∀ {k j}, input.Path k ts j →
      input.Lacks ["("] j → ∀ i n, n.content = e.erase →
      ∃ m, Suffix.ComesTo Grammar.suffixes input i n k (some (m, j)) ∧ m.content = e'.erase) :
    e'.Parses input := by
  have hoperates := he.operates hkind
  refine of_operates hkind' (fun hpath => ?_)
    ⟨fun hpath => ?_, fun h => absurd h hdimensioned, fun {i j} hpath hparenthesis _ => ?_⟩
  all_goals
    rw [htokens] at hpath
    obtain ⟨k, hpath, hbehind⟩ := path_append.mp hpath
  · exact he.wordless hpath
  · exact hoperates.noOperator hpath
  · have hopening : input.Lacks ["("] k :=
      refuses_of_subset (hfirst hbehind) (by simp)
    have hbracket : input.Lacks ["["] k :=
      refuses_of_subset (hfirst hbehind) (by simp)
    refine hoperates.spannedBy_suffix hpath hopening
      (hoperates.functionCall_none hpath hbracket hopening) ?_
      (hstep hbehind hparenthesis i)
    rw [htokens, length_append]
    exact Nat.lt_add_of_pos_right (length_pos_iff.mpr hne)

theorem step (he : e.Parses input) (hkind : e.kind ∈ operands)
    (ht : t.Spells (.punct Grammar.stepOperators)) : (Node.mk .postfixExpr id span [.child e,
      .child (.mk .postfixOperator id' span' [.token t])]).Parses input := by
  refine of_suffix [t] he hkind (show Kind.postfixExpr ∈ operands by decide)
    (by simp [tokens_mk]) (by simp) (fun h => ?_) (fun hpath => ?_)
    fun {k j} hpath _ i n hcontent => ?_
  · cases h with
    | index _ hkind => cases hkind
  · exact refuses_of_disjoint (ht.at hpath).1 (by decide)
  · obtain ⟨haccepts, htoken, hlast⟩ := ht.at hpath
    obtain rfl : k + 1 = j := hlast
    refine ⟨_, .other (.cons_none (.child_none (arraySpecifier_none
      (refuses_of_disjoint haccepts (by decide)))) _)
        (.first (.cons (.child (.node (.cons (.token haccepts) (.nil _)))) (.nil _))
          (.nil _ _ _)), ?_⟩
    simp [content_mk, erase_mk, mapNodes, hcontent, htoken]

end Node.Parses

/-- An operand and the selection of a field of it, as they are read. -/
def Input.selection (input : Input) (start i : Nat) (n : Node) (dot name : Token) : Node :=
  .mk .postfixExpr NodeId.detached (input.nodeSpan start (i + 2)) [.child n,
    .child (.mk .fieldSelection NodeId.detached (input.nodeSpan i (i + 2))
      [.token dot, .token name])]

/-- The selection of a field, with what comes of the arguments behind it. -/
theorem Grammar.selection_comesTo (hdot : dot.Spells (.punct ["."]))
    (hname : name.Spells .identifier)
    (hpath : input.Path i (dot :: name :: ts) j) (start : Nat) (n : Node) {o : Option (Node × Nat)}
    (hfollow : Suffix.ComesTo [.mk .functionCall arguments []] input start
      (input.selection start i n dot name) (i + 2) o) :
    Suffix.ComesTo suffixes input start n i
      (some (o.getD (input.selection start i n dot name, i + 2))) := by
  obtain ⟨haccepts, htoken, hbehind⟩ := hdot.at hpath
  obtain ⟨haccepts', htoken', -⟩ := hname.at hbehind
  have hfield : fieldSelection.ComesTo input i
      (some (.mk .fieldSelection NodeId.detached (input.nodeSpan i (i + 2))
        [.token dot, .token name], i + 2)) := by
    have hall : fieldSelection.ComesTo input i _ :=
      .node (.cons (.token haccepts) (.cons (.token haccepts') (.nil _)))
    simpa [htoken, htoken'] using hall
  exact .other (.cons_none (.child_none (arraySpecifier_none
      (refuses_of_disjoint haccepts (by decide)))) _)
    (.other (.cons_none (.child_none (.node_none (.cons_none (.token_none
        (refuses_of_disjoint haccepts (by decide))) _))) _)
      (.first (.cons (.child hfield) (.nil _)) hfollow))

namespace Node.Parses

variable {id id' id'' : NodeId} {span span' span'' : Option Span}

theorem field (he : e.Parses input) (hkind : e.kind ∈ operands)
    (hdot : dot.Spells (.punct ["."])) (hname : name.Spells .identifier) :
    (Node.mk .postfixExpr id span [.child e,
      .child (.mk .fieldSelection id' span' [.token dot, .token name])]).Parses input := by
  refine of_suffix [dot, name] he hkind (show Kind.postfixExpr ∈ operands by decide)
    (by simp [tokens_mk]) (by simp) (fun h => ?_) (fun hpath => ?_)
    fun {k j} hpath hparenthesis i n hcontent => ?_
  · cases h with
    | index _ hkind => cases hkind
  · exact refuses_of_disjoint (hdot.at hpath).1 (by decide)
  · obtain ⟨-, -, hlast⟩ := hdot.at hpath
    obtain ⟨-, -, hlast⟩ := hname.at hlast
    obtain rfl : k + 2 = j := hlast
    refine ⟨_, selection_comesTo hdot hname hpath i n
      (arguments_none hparenthesis i _), ?_⟩
    simp [selection, content_mk, erase_mk, mapNodes, hcontent]

section Call

variable {arguments : List Node} (hname : name.Spells .identifier)
  (hopening : opening.Spells (.punct ["("])) (harguments : ∀ a ∈ arguments, a.Parses input)
  (hsequence : ∀ a ∈ arguments, a.kind ≠ .sequence) (hcommas : Token.Separate commas arguments)
  (hclosing : closing.Spells (.punct [")"]))

include hname hopening harguments hsequence hcommas hclosing

theorem method (he : e.Parses input) (hkind : e.kind ∈ operands)
    (hdot : dot.Spells (.punct ["."])) :
    (Node.mk .functionCall id span [.child (.mk .postfixExpr id' span' [.child e,
      .child (.mk .fieldSelection id'' span'' [.token dot, .token name])]),
      .token opening, .separated arguments commas, .token closing]).Parses input := by
  refine of_suffix (dot :: name :: opening ::
      ((Part.separated arguments commas).tokens ++ [closing])) he hkind
    (show Kind.functionCall ∈ operands by decide) (by simp [tokens_mk]) (by simp)
    (fun h => ?_) (fun hpath => ?_) fun {k j} hpath _ i n hcontent => ?_
  · cases h
  · exact refuses_of_disjoint (hdot.at hpath).1 (by decide)
  · obtain ⟨-, -, hlast⟩ := hdot.at hpath
    obtain ⟨-, -, hlast⟩ := hname.at hlast
    obtain ⟨-, ns, hns, hcontents⟩ := arguments_comesTo hopening harguments hsequence
      hcommas hclosing hlast
    refine ⟨_, selection_comesTo hdot hname hpath i n (.first hns (.nil _ _ _)), ?_⟩
    have hselection : (input.selection i k n dot name).kind ≠ .typeSpecifier := by
      simp [selection]
    rw [content_method hselection]
    simp [selection, content_mk, erase_mk, mapNodes, hcontent, hcontents]

theorem call : (Node.mk .functionCall id span [.child (.mk .identifier id' span' [.token name]),
      .token opening, .separated arguments commas, .token closing]).Parses input := by
  have htokens : (Node.mk .functionCall id span [.child (.mk .identifier id' span' [.token name]),
      .token opening, .separated arguments commas, .token closing]).tokens =
      name :: opening :: ((Part.separated arguments commas).tokens ++ [closing]) := by
    simp [tokens_mk]
  refine of_operates (show Kind.functionCall ∈ operands by decide) (fun hpath => ?_)
    ⟨fun hpath => ?_, fun hdimensioned => ?_, fun {i j} hpath hparenthesis hcall => ?_⟩
  · obtain ⟨haccepts, -⟩ := hname.at (htokens ▸ hpath)
    rw [kind_of_identifier haccepts]
    rfl
  · obtain ⟨haccepts, -⟩ := hname.at (htokens ▸ hpath)
    exact refuses_of_kind (by simp [kind_of_identifier haccepts])
  · cases hdimensioned
  · obtain ⟨haccepts, htoken, hbehind⟩ := hname.at (htokens ▸ hpath)
    obtain ⟨hopens, ns, hns, hcontents⟩ := arguments_comesTo hopening harguments hsequence
      hcommas hclosing hbehind
    refine ReadBy.spannedBy
      ⟨_, .orElse_some (functionCall_name haccepts hopens hns) _, ?_⟩ _
    simp [content_call, Node.leaf, erase_mk, mapNodes, htoken, hcontents]

end Call

/-! ### Operations -/

theorem unaryOperation (ht : t.Spells (.punct Grammar.unaryOperators)) (he : e.Parses input)
    (hkind : e.kind ∈ unaries) :
    (Node.mk .unary id span [.token t, .child e]).Parses input := by
  have htokens : (Node.mk .unary id span [.token t, .child e]).tokens = t :: e.tokens := by
    simp [tokens_mk]
  refine of_unary (show Kind.unary ∈ unaries by decide) (fun hpath => ?_)
    (fun hoperand => absurd (show Kind.unary ∈ operands from hoperand) (by decide))
    fun {i j} hpath hend => ?_
  · rw [kind_of_punct (ht.at (htokens ▸ hpath)).1]
    rfl
  · obtain ⟨haccepts, htoken, hbehind⟩ := ht.at (htokens ▸ hpath)
    obtain ⟨n, hn, hcontent⟩ := he.unary hkind hbehind hend
    refine ⟨_, .rule (.choose_yes haccepts (.node (.cons (.token haccepts)
      (.cons (.child hn) (.nil _))))), ?_⟩
    simp [content_mk, erase_mk, mapNodes, htoken, hcontent]

/-- An expression on the right side of an operator. -/
theorem operand (he : e.Parses input) (hbinds : e.BindsFrom (level + 1))
    (hpath : input.Path i e.tokens j) (hend : (input.lexeme j).EndsFrom (level + 4)) :
    e.ReadBy input (.rule (Grammar.operand level)) i j := by
  by_cases htight : level.val + 1 < 11
  · rw [Grammar.operand, dif_pos htight]
    exact (he.spanned ⟨level + 1, htight⟩ hbinds hpath (hend.mono (by simp))).readBy_binary
      hpath (hend.refuses _ (continuations_level _) (by simp))
  · have hunary : e.kind ∈ unaries := by
      rcases hbinds with hkind | ⟨l, -, hle⟩
      · exact hkind
      · omega
    rw [Grammar.operand, dif_neg htight]
    exact he.unary hunary hpath (hend.mono (by omega))

theorem binaryOperation {left right : Node} (hleft : left.Parses input)
    (hbinds : left.BindsFrom level) (ht : t.Spells (.punct (Grammar.binaryOperators level)))
    (hright : right.Parses input) (hbinds' : right.BindsFrom (level + 1)) :
    (Node.mk .binary id span [.child left, .token t, .child right]).Parses input := by
  have htokens : (Node.mk .binary id span [.child left, .token t, .child right]).tokens =
      left.tokens ++ t :: right.tokens := by
    simp [tokens_mk]
  have htext : t.text ∈ Grammar.binaryOperators level := by
    obtain ⟨kind, -, haccepts⟩ := ht.lexeme
    simp only [accepts, Bool.and_eq_true, contains_iff_mem] at haccepts
    exact haccepts.2
  have hlevel : (Node.mk .binary id span [.child left, .token t, .child right]).level? =
      some level := levelOf?_eq_some htext
  have hends : ∀ level : Fin 11, ((Grammar.binaryOperators level).all fun m =>
      !(Grammar.continuations.drop (level + 4)).flatten.contains m &&
        !Grammar.assignmentOperators.contains m) = true := by
    decide +kernel
  have hmarks := fun m hm => all_eq_true.mp (hends level) m hm
  simp only [Bool.and_eq_true, Bool.not_eq_true', contains_eq_mem, decide_eq_false_iff_not]
    at hmarks
  refine of_spanned (fun hpath => ?_)
    (fun hkind => absurd (show Kind.binary ∈ operands from hkind) (by decide))
    (fun hkind => absurd (show Kind.binary ∈ unaries from hkind) (by decide))
    (fun hpath _ _ => ?_) (fun level' hbinds' i j hpath hend => ?_)
    (.inr ⟨level, hlevel, Nat.zero_le _⟩)
  · obtain ⟨k, hpath, -⟩ := path_append.mp (htokens ▸ hpath)
    exact hleft.wordless hpath
  · obtain ⟨k, hpath, hbehind⟩ := path_append.mp (htokens ▸ hpath)
    obtain ⟨haccepts, -, -⟩ := ht.at hbehind
    refine hleft.heads hbinds.kind_mem hpath ?_
      (refuses_of_disjoint haccepts fun m hm => (hmarks m hm).2)
    exact EndsFrom.mono (refuses_of_disjoint haccepts fun m hm => (hmarks m hm).1)
      (by omega)
  · have hle : level'.val ≤ level.val := by
      rcases hbinds' with hkind | ⟨l, hl, hle⟩
      · exact absurd (show Kind.binary ∈ unaries from hkind) (by decide)
      · rw [hlevel] at hl
        rwa [← Option.some.inj hl] at hle
    refine SpannedBy.loosen hle ?_ hpath hend
    obtain ⟨k, hpath, hbehind⟩ := path_append.mp (htokens ▸ hpath)
    obtain ⟨haccepts, htoken, hbehind⟩ := ht.at hbehind
    obtain ⟨head, l, count, n, hhead, hsteps, hcount, hcontent⟩ := hleft.spanned level hbinds hpath
      (refuses_of_disjoint haccepts fun m hm => (hmarks m hm).1)
    obtain ⟨m, hm, hcontent'⟩ :=
      hright.operand ‹right.BindsFrom (level + 1)› hbehind (hend.mono (by omega))
    refine ⟨head, l, count + 1, _, hhead, .step hsteps (.first (.cons (.token haccepts)
      (.cons (.child hm) (.nil _))) (.nil _ _ _)), ?_, ?_⟩
    · simp only [htokens, length_append, length_cons]
      omega
    · simp [content_mk, erase_mk, mapNodes, htoken, hcontent, hcontent']

theorem ternaryOperation {question colon : Token} {condition value alternate : Node}
    (hcondition : condition.Parses input) (hbinds : condition.BindsFrom 0)
    (hquestion : question.Spells (.punct ["?"])) (hvalue : value.Parses input)
    (hcolon : colon.Spells (.punct [":"])) (halternate : alternate.Parses input)
    (hsequence : alternate.kind ≠ .sequence) :
    (Node.mk .ternary id span [.child condition, .token question, .child value, .token colon,
      .child alternate]).Parses input := by
  have htokens : (Node.mk .ternary id span [.child condition, .token question, .child value,
      .token colon, .child alternate]).tokens =
      condition.tokens ++ question :: (value.tokens ++ colon :: alternate.tokens) := by
    simp [tokens_mk]
  have hheads : ∀ {i j}, input.Path i (Node.mk .ternary id span [.child condition, .token question,
      .child value, .token colon, .child alternate]).tokens j → input.Heads i := by
    intro i j hpath
    obtain ⟨k, hpath, hbehind⟩ := path_append.mp (htokens ▸ hpath)
    obtain ⟨haccepts, -, -⟩ := hquestion.at hbehind
    exact hcondition.heads hbinds.kind_mem hpath (endsFrom_of_punct haccepts (by decide))
      (refuses_of_disjoint haccepts (by decide))
  refine of_assignment (not_bindsFrom (show Kind.ternary ∉ unaries by decide) rfl)
    (fun hpath => ?_) (fun _ => hheads) fun {i j} hpath hend => ReadBy.assignment ?_ (hheads hpath)
  · obtain ⟨k, hpath, -⟩ := path_append.mp (htokens ▸ hpath)
    exact hcondition.wordless hpath
  · obtain ⟨k, hleft, hbehind⟩ := path_append.mp (htokens ▸ hpath)
    obtain ⟨haccepts, htoken, hbehind⟩ := hquestion.at hbehind
    obtain ⟨l, hmiddle, hbehind⟩ := path_append.mp hbehind
    obtain ⟨haccepts', htoken', hbehind⟩ := hcolon.at hbehind
    obtain ⟨c, hc, hcontent⟩ := (hcondition.spanned 0 hbinds hleft
      (endsFrom_of_punct haccepts (by decide))).readBy_binary hleft
      (refuses_of_disjoint haccepts (by decide))
    obtain ⟨v, hv, hcontent'⟩ := hvalue.expression hmiddle
      (endsFrom_of_punct haccepts' (by decide))
    obtain ⟨a, ha, hcontent''⟩ := halternate.assignment hsequence hbehind hend
    refine ⟨_, .rule (.suffixed hc (.step .refl (.first (.cons (.token haccepts)
      (.cons (.child hv) (.cons (.token haccepts') (.cons (.child ha) (.nil _)))))
      (.nil _ _ _))) (Nat.le_refl _) (.inl rfl)), ?_⟩
    simp [content_mk, erase_mk, mapNodes, htoken, htoken', hcontent, hcontent', hcontent'']

theorem assignmentOperation {left right : Node} (hleft : left.Parses input)
    (hkind : left.kind ∈ unaries) (ht : t.Spells (.punct assignmentOperators))
    (hright : right.Parses input) (hsequence : right.kind ≠ .sequence) :
    (Node.mk .assignment id span [.child left, .token t, .child right]).Parses input := by
  have htokens : (Node.mk .assignment id span [.child left, .token t, .child right]).tokens =
      left.tokens ++ t :: right.tokens := by
    simp [tokens_mk]
  refine of_assignment (not_bindsFrom (show Kind.assignment ∉ unaries by decide) rfl)
    (fun hpath => ?_)
    (fun hkind => absurd (show Kind.assignment ∈ ternaries from hkind) (by decide))
    fun {i j} hpath hend => ?_
  · obtain ⟨k, hpath, -⟩ := path_append.mp (htokens ▸ hpath)
    exact hleft.wordless hpath
  · obtain ⟨k, hpath, hbehind⟩ := path_append.mp (htokens ▸ hpath)
    obtain ⟨haccepts, htoken, hbehind⟩ := ht.at hbehind
    obtain ⟨n, hn, hcontent⟩ := hleft.unary hkind hpath
      (endsFrom_of_punct haccepts (by decide))
    obtain ⟨m, hm, hcontent'⟩ := hright.assignment hsequence hbehind hend
    refine ⟨_, .rule (.orElse_some (.node (.cons (.child hn) (.cons (.token haccepts)
      (.cons (.child hm) (.nil _))))) _), ?_⟩
    simp [content_mk, erase_mk, mapNodes, htoken, hcontent, hcontent']

theorem sequenceOperation (hlength : 2 ≤ items.length) (hitems : ∀ e ∈ items, e.Parses input)
    (hsequence : ∀ e ∈ items, e.kind ≠ .sequence) (hcommas : Token.Separate commas items) :
    (Node.mk .sequence id span [.separated items commas]).Parses input := by
  obtain ⟨first, items, rfl⟩ : ∃ first rest, items = first :: rest :=
    exists_cons_of_length_pos (by omega)
  have htokens : (Node.mk .sequence id span [.separated (first :: items) commas]).tokens =
      (Part.separated (first :: items) commas).tokens := by
    rw [tokens_mk, flatMap_singleton]
  refine ⟨fun hpath => ?_,
    fun hkind => absurd (show Kind.sequence ∈ operands from hkind) (by decide),
    fun hkind => absurd (show Kind.sequence ∈ unaries from hkind) (by decide),
    fun hkind => absurd (show Kind.sequence ∈ ternaries from hkind) (by decide),
    fun level hbinds => absurd (show Kind.sequence ∈ ternaries from hbinds.kind_mem)
      (by decide), fun hkind => absurd rfl hkind, fun {i j} hpath hend => ?_⟩
  · obtain ⟨k, hfirst⟩ := (htokens ▸ hpath).exists_first
    exact (hitems first mem_cons_self).wordless hfirst
  · obtain ⟨n, k, rest, hn, htail, hbound, hfst, hcontents⟩ :=
      list hitems hsequence hcommas (htokens ▸ hpath) (hend.mono (by decide))
    have hne : rest ≠ [] := by
      rintro rfl
      have hitems' := congrArg List.length hcontents
      simp only [map_nil, map_cons, length_cons, length_map,
        length_nil] at hitems' hlength
      omega
    refine ⟨_, .rule (.joined hne hn htail hbound (hend.refuses 0 rfl (Nat.le_refl _))), ?_⟩
    rw [content_mk (by decide), erase_mk]
    simp only [separatedPart, map_cons, map_nil, mapNodes] at hcontents ⊢
    rw [hfst, hcontents]

end Node.Parses

/-- **Expressions are read as what they are**, wherever the grammar admits them. -/
theorem Node.IsExpression.parses (h : e.IsExpression) (input : Input) : e.Parses input := by
  induction h with
  | identifier ht => exact .identifier ht
  | literal ht => exact .literal ht
  | group hopening _ hclosing ih => exact .group hopening ih hclosing
  | unary ht _ hkind ih => exact .unaryOperation ht ih hkind
  | binary _ hbinds ht _ hbinds' ihl ihr => exact .binaryOperation ihl hbinds ht ihr hbinds'
  | index _ hkind hopening _ hclosing ih ihinner =>
    exact .index ih hkind hopening ihinner hclosing
  | step _ hkind ht ih => exact .step ih hkind ht
  | field _ hkind hdot hname ih => exact .field ih hkind hdot hname
  | call hname hopening _ hsequence hcommas hclosing ih =>
    exact .call hname hopening ih hsequence hcommas hclosing
  | method _ hkind hdot hname hopening _ hsequence hcommas hclosing ih iharguments =>
    exact .method hname hopening iharguments hsequence hcommas hclosing ih hkind hdot
  | ternary _ hbinds hquestion _ hcolon _ hsequence ihc ihv iha =>
    exact .ternaryOperation ihc hbinds hquestion ihv hcolon iha hsequence
  | assignment _ hkind ht _ hsequence ihl ihr =>
    exact .assignmentOperation ihl hkind ht ihr hsequence
  | sequence hlength _ hsequence hcommas ih => exact .sequenceOperation hlength ih hsequence hcommas

end ShaderSource
