import ShaderSource.Proofs.ExpressionReading
import ShaderSource.Proofs.Reparsing

/-!
# Parsing undoes printing

An expression that obeys the order of the grammar, and whose tokens are all followed by blanks, is
read back from its source. The blanks keep the tokens apart, so the source is cut into the tokens of
the expression; these are read as a tree of the same content; and as an expression on its own
declares no types, binding takes each callee for a function, which is what it was.

Reading may still stop because the expression is nested too deeply.

## Main results

* `Node.IsExpression.path`: the source of an expression is cut into its tokens.
* `Node.AllFit.isMention`: what binding comes upon in a tree of expressions.
* `Program.parse_source_of_isExpression`: the program that is read from the source of an expression
  holds the expression.
-/

namespace ShaderSource

open List Node ShaderSource.Part

/-! ### The tokens of an expression -/

/-- The token is a lexeme on its own, with blanks behind it. -/
def Token.StandsApart (t : Token) : Prop :=
  t.Spaced ∧ ∃ kind, Scan.kind? t.text = some kind ∧ t.Stands kind

theorem Token.Spells.stands {tok : Token} {t : Terminal} (h : tok.Spells t)
    (ht : t ≠ .directive) : tok.StandsApart := by
  obtain ⟨kind, hkind, haccepts⟩ := h.lexeme
  have hkinds : kind ≠ .directive ∧ kind ≠ .invalid := by
    constructor
    all_goals
      rintro rfl
      cases t <;> simp_all [Terminal.accepts, Terminal.isKeyword]
  have hlexeme := Scan.isLexeme_of_kind? hkind hkinds.2
  refine ⟨h.toSpaced, kind, hkind, hlexeme, hkinds.1, ?_⟩
  obtain ⟨c, cs, htext, -, hcut⟩ := hlexeme
  rw [htext]
  exact Scan.not_opensComment hcut hkinds.2

theorem Token.line_of_standsApart {ts : List Token} (h : ∀ t ∈ ts, t.StandsApart) :
    Token.Line (ts.map fun t => (t, (Scan.kind? t.text).getD .invalid)) := by
  induction ts with
  | nil => trivial
  | cons t ts ih =>
    rw [forall_mem_cons] at h
    obtain ⟨⟨hspaced, kind, hkind, hstands⟩, hts⟩ := h
    refine ⟨?_, hspaced.blank, fun _ => hspaced.trivia_ne, ih hts⟩
    simpa [hkind] using hstands

/-- Every token of the part stands on its own. -/
def Part.Stands (p : Part) : Prop :=
  ∀ t ∈ p.tokens, t.StandsApart

/-- Every token of the node stands on its own. -/
def Node.Stands (n : Node) : Prop :=
  ∀ t ∈ n.tokens, t.StandsApart

@[simp] theorem Node.stands_mk {kind : Kind} {id : NodeId} {span : Option Span} {ps : List Part} :
    (Node.mk kind id span ps).Stands ↔ ∀ p ∈ ps, p.Stands := by
  simp only [Node.Stands, tokens_mk, mem_flatMap, Part.Stands]
  exact ⟨fun h p hp t ht => h t ⟨p, hp, ht⟩, fun h t ⟨p, hp, ht⟩ => h p hp t ht⟩

@[simp] theorem Part.stands_token {t : Token} :
    (Part.token t).Stands ↔ t.StandsApart := by
  simp [Part.Stands]

@[simp] theorem Part.stands_child {n : Node} : (Part.child n).Stands ↔ n.Stands := by
  simp [Part.Stands, Node.Stands]

/-- Items with commas between them stand if the items do. -/
theorem Token.Separate.stands {commas : List Token} {items : List Node}
    (h : Token.Separate commas items) (hitems : ∀ n ∈ items, n.Stands) :
    (Part.separated items commas).Stands := by
  cases items with
  | nil => simp [Part.Stands, Part.tokens, separatedTokens]
  | cons first items =>
    rw [forall_mem_cons] at hitems
    obtain ⟨rest, hpart, hrest⟩ := h.exists_rest
    rw [Part.Stands, hpart, tokens_separatedPart, forall_mem_append]
    refine ⟨hitems.1, ?_⟩
    clear hpart h
    induction rest with
    | nil => simp [tailTokens]
    | cons a rest ih =>
      rw [forall_mem_cons] at hrest
      rw [tailTokens, forall_mem_append, forall_mem_cons]
      exact ⟨⟨hrest.1.1.stands (by simp), hitems.2 _ hrest.1.2⟩, ih hrest.2⟩

/-- Every token of an expression stands on its own. -/
theorem Node.IsExpression.stands {e : Node} (h : e.IsExpression) : e.Stands := by
  induction h with
  | identifier ht | literal ht => simpa using ht.stands (by simp)
  | group hopening _ hclosing ih =>
    simpa using ⟨hopening.stands (by simp), ih, hclosing.stands (by simp)⟩
  | unary ht _ _ ih => simpa using ⟨ht.stands (by simp), ih⟩
  | binary _ _ ht _ _ ihleft ihright | assignment _ _ ht _ _ ihleft ihright =>
    simpa using ⟨ihleft, ht.stands (by simp), ihright⟩
  | @index _ _ _ _ _ _ _ inner _ _ hopening _ hclosing ih ihinner =>
    have hinner : (Part.optChild inner).Stands := by
      cases inner with
      | none => simp [Part.Stands, Part.tokens]
      | some n => simpa [Part.Stands, Part.tokens, Node.Stands] using ihinner n rfl
    simpa using ⟨ih, hopening.stands (by simp), hinner, hclosing.stands (by simp)⟩
  | step _ _ ht ih => simpa using ⟨ih, ht.stands (by simp)⟩
  | field _ _ hdot hname ih =>
    simpa using ⟨ih, hdot.stands (by simp), hname.stands (by simp)⟩
  | call hname hopening _ _ hcommas hclosing ih =>
    simpa using ⟨hname.stands (by simp), hopening.stands (by simp), hcommas.stands ih,
      hclosing.stands (by simp)⟩
  | method _ _ hdot hname hopening _ _ hcommas hclosing ih iharguments =>
    simpa using ⟨⟨ih, hdot.stands (by simp), hname.stands (by simp)⟩, hopening.stands (by simp),
      hcommas.stands iharguments, hclosing.stands (by simp)⟩
  | ternary _ _ hquestion _ hcolon _ _ ihcondition ihvalue ihalternate =>
    simpa using ⟨ihcondition, hquestion.stands (by simp), ihvalue, hcolon.stands (by simp),
      ihalternate⟩
  | sequence _ _ _ hcommas ih => simpa using hcommas.stands ih

/-! ### Cutting up the source -/

/-- Tokens stand one after the other if they are the texts of the lexemes from a place on. -/
theorem Input.path_of_forall₂ {input : Input} {ts : List Token} {i : Nat}
    (h : List.Forall₂ (fun t l => Lexeme.token l = t ∧ Scan.kind? t.text = some l.kind) ts
      (input.lexemes.body.toList.drop i)) :
    input.Path i ts (i + ts.length) := by
  generalize hls : input.lexemes.body.toList.drop i = ls at h
  induction h generalizing i with
  | nil => rfl
  | @cons t l ts ls hl _ ih =>
    have hlt : i < input.lexemes.body.size := by
      by_contra hge
      rw [drop_of_length_le (by simpa using hge)] at hls
      cases hls
    have hget : input.lexeme i = l := by
      have hfirst := congrArg List.head? hls
      rw [head?_drop, Array.getElem?_toList, head?_cons] at hfirst
      simp [Input.lexeme, Lexemes.get, hfirst]
    refine ⟨Nat.lt_succ_of_lt hlt, ?_, ?_, ?_⟩
    · rw [hget]
      exact hl.1
    · rw [hget]
      exact hl.2
    · rw [length_cons, ← Nat.add_assoc, Nat.add_right_comm]
      refine ih ?_
      rw [← drop_drop, hls]
      rfl

/-- The source of an expression is cut into its tokens. -/
theorem Node.IsExpression.path {e : Node} (h : e.IsExpression) (located : Bool) :
    (Lexemes.ofString e.source).leading = "" ∧
      Input.Path ⟨Lexemes.ofString e.source, located⟩ 0 e.tokens
        (Lexemes.ofString e.source).body.size := by
  have htext : e.source = String.join
      ((e.tokens.map fun t => (t, (Scan.kind? t.text).getD .invalid)).map fun a => a.1.source) := by
    rw [source_eq_join, map_map]
    rfl
  obtain ⟨hleading, hsame⟩ := Lexemes.ofString_spaced (Token.line_of_standsApart h.stands) htext
  rw [map_map, forall₂_map_left_iff] at hsame
  have hlength : (Lexemes.ofString e.source).body.size = 0 + e.tokens.length := by
    rw [Nat.zero_add, ← Array.length_toList]
    exact hsame.length_eq.symm
  refine ⟨hleading, ?_⟩
  rw [hlength]
  refine Input.path_of_forall₂ ?_
  rw [drop_zero]
  refine ((forall₂_and_left _ _).mpr ⟨fun t ht => h.stands t ht, hsame⟩).imp ?_
  rintro t l ⟨⟨-, kind, hkind, -⟩, hlkind, hltoken⟩
  refine ⟨hltoken, ?_⟩
  rw [hlkind, hkind]
  simp [Token.toLexeme, hkind]

/-! ### What binding comes upon -/

/-- The kinds of nodes that declare nothing, use no types and open no scopes, whatever is below
them. -/
def Kind.isQuiet (k : Kind) : Bool :=
  k ∈ [.program, .arraySpecifier, .postfixOperator, .fieldSelection] ++ Kind.expressions

/-- The occurrence uses a variable or calls something. -/
def Occurrence.isMention : Occurrence → Bool
  | .useVariable _ _ => true
  | .call _ _ _ _ => true
  | _ => false

theorem Occurrence.isFlat_of_isMention {o : Occurrence} (h : o.isMention = true) :
    o.isFlat = true := by
  cases o with
  | useVariable | call => rfl
  | _ => cases h

theorem Kind.isQuiet_cases {k : Kind} (h : k.isQuiet = true) :
    k = .identifier ∨ k = .functionCall ∨ k.isUniform = true := by
  cases k <;> first | exact .inl rfl | exact .inr (.inl rfl) | exact .inr (.inr rfl) | cases h

/-- All nodes of the tree are of quiet kinds. -/
def Node.AllQuiet (n : Node) : Prop :=
  ∀ m ∈ n.preorder, m.kind.isQuiet = true

section Quiet

variable {n c : Node}

theorem Node.allQuiet_of (hn : n.kind.isQuiet = true) (hbelow : ∀ c ∈ n.children, c.AllQuiet) :
    n.AllQuiet := by
  intro m hm
  rcases mem_preorder_iff.mp hm with rfl | ⟨c, hc, hm⟩
  · exact hn
  · exact hbelow c hc m hm

theorem Node.allQuiet_erase (hn : n.kind.isQuiet = true)
    (hbelow : ∀ c ∈ n.children, c.erase.AllQuiet) : n.erase.AllQuiet := by
  obtain ⟨k, id, span, ps⟩ := n
  have hchildren := children_mapChildren Node.erase (.mk k NodeId.detached none ps)
  rw [mapChildren, ← erase_mk k id span ps] at hchildren
  refine allQuiet_of (by rwa [kind_erase]) ?_
  rw [hchildren, forall_mem_map]
  exact hbelow

theorem Node.AllQuiet.kind_of_content (h : n.content.AllQuiet) (hplain : n.isPlainCall = false) :
    n.kind.isQuiet = true := by
  have hkind := h _ n.content.mem_preorder_self
  rwa [content_of_not hplain] at hkind

theorem Node.AllQuiet.content_child (h : n.content.AllQuiet) (hplain : n.isPlainCall = false)
    (hc : c ∈ n.children) : c.content.AllQuiet := by
  intro m hm
  refine h m (mem_preorder_of_mem_child (c := c.content) ?_ hm)
  obtain ⟨k, id, span, ps⟩ := n
  rw [content_of_not hplain]
  have hchildren := children_mapChildren content (.mk k NodeId.detached none ps)
  rw [mapChildren] at hchildren
  exact hchildren ▸ mem_map_of_mem hc

theorem Node.AllQuiet.content_argument (h : n.content.AllQuiet) (hfit : n.AllFit)
    (hplain : n.isPlainCall = true) (hc : c ∈ n.field 2) : c.content.AllQuiet := by
  obtain ⟨callee, t', arguments, ts, t'', heq⟩ := hfit.plainCall_eq hplain
  rw [heq] at h hc
  intro m hm
  refine h m (mem_preorder_of_mem_child (c := c.content) ?_ hm)
  rw [content_call, children_mk]
  simpa [mapNodes, nodes] using .inr ⟨c, by simpa [nodes] using hc, rfl⟩

/-- In a tree of expressions, binding comes upon uses of variables and calls only. -/
theorem Node.AllFit.isMention (h : n.AllFit) (hquiet : n.content.AllQuiet) :
    ∀ o ∈ n.occurrences .plain, o.isMention = true := by
  induction n using induction with
  | h n ih =>
    cases hplain : n.isPlainCall with
    | true =>
      intro o ho
      rw [h.occurrences_eq, plan, if_pos hplain] at ho
      obtain ⟨move, hmove, ho⟩ := mem_flatMap.mp ho
      simp only [mem_cons, not_mem_nil, or_false] at hmove
      rcases hmove with rfl | rfl
      · obtain ⟨callee, -, ho⟩ := mem_flatMap.mp ho
        obtain ⟨name, -, rfl⟩ := mem_map.mp ho
        rfl
      · obtain ⟨c, hc, ho⟩ := mem_flatMap.mp ho
        have hfield : c ∈ n.field 2 := by simpa [along] using hc
        have hchild := mem_children_iff.mpr ⟨2, hfield⟩
        exact ih c hchild (h.child hchild) (hquiet.content_argument h hplain hfield) o ho
    | false =>
      have hbelow : n.occurrences .plain = n.children.flatMap (Node.occurrences .plain) →
          ∀ o ∈ n.occurrences .plain, o.isMention = true := by
        intro heq o ho
        rw [heq] at ho
        obtain ⟨c, hc, ho⟩ := mem_flatMap.mp ho
        exact ih c hc (h.child hc) (hquiet.content_child hplain hc) o ho
      rcases Kind.isQuiet_cases (hquiet.kind_of_content hplain) with hkind | hkind | hkind
      · intro o ho
        rw [h.occurrences_eq, plan_of_kind (by simp [hkind]) (by simp [hkind]),
          hkind] at ho
        obtain rfl : o = .useVariable n.text n.site := by
          simpa [Kind.plan, Node.perform, NameClass.uses] using ho
        rfl
      · exact hbelow (h.occurrences_call hkind (by simp [hplain]) .plain)
      · exact hbelow (occurrences_of_uniform hkind .plain)

end Quiet

/-! ### Binding -/

namespace Names

variable {b : Names} {o : Occurrence}

/-- Where no types are known, uses and calls make none known. -/
theorem not_knowsType_step (ho : o.isMention = true) (h : ∀ x, ¬b.KnowsType x) (x : String) :
    ¬(b.step o).KnowsType x := by
  cases o with
  | useVariable y site => rw [(parallel_inert rfl).knowsType]; exact h x
  | call y callee arguments site =>
    rw [Names.step, (parallel_call_function (h y) callee.id arguments site.id).knowsType,
      KnowsType, scopes_exchangeCallee, current_exchangeCallee]
    exact h x
  | _ => cases ho

theorem not_knowsType_foldl {os : List Occurrence} (hos : ∀ o ∈ os, o.isMention = true)
    (h : ∀ x, ¬b.KnowsType x) (x : String) : ¬(os.foldl Names.step b).KnowsType x := by
  induction os generalizing b with
  | nil => exact h x
  | cons o os ih =>
    rw [forall_mem_cons] at hos
    exact ih hos.2 (not_knowsType_step hos.1 h)

theorem not_knowsType_initial (span : Option Span) (last : NodeId) (x : String) :
    ¬(Binding.initial span last).names.KnowsType x := by
  intro h
  cases h

end Names

/-- Every call by a name alone is come upon. -/
theorem Node.AllFit.exists_call {root m : Node} (h : root.AllFit) (hm : m ∈ root.preorder)
    (hplain : m.isPlainCall = true) :
    ∃ name callee arguments, .call name callee arguments m.site ∈ root.occurrences .plain := by
  have hkind := (isPlainCall_iff.mp hplain).1
  obtain ⟨role, hreach⟩ := h.visited hm (by rw [hkind]; rfl)
  obtain ⟨name, hname⟩ : ∃ name, name ∈ m.along [0, 0] := by
    have hnames := (isPlainCall_iff.mp hplain).2.2.1
    exact exists_mem_of_ne_nil _ fun hnil => by simp [hnil] at hnames
  obtain ⟨callee, hcallee, hname⟩ : ∃ callee ∈ m.field 0, name ∈ callee.field 0 := by
    simpa [along] using hname
  refine ⟨name.text, ⟨name.id, callee.span⟩, argumentCount (m.field 2), ?_⟩
  refine hreach.performs h (call_mem_plan.mpr hplain) ?_
  exact mem_flatMap.mpr ⟨callee, hcallee, mem_map_of_mem hname⟩

/-- If only variables and calls are mentioned, every call by a name alone gets a new callee. -/
theorem Program.BoundAs.exists_callee {p : Program} {tree m : Node} {last : NodeId} {b : Names}
    (h : p.BoundAs tree last b) (hmentions : ∀ o ∈ tree.occurrences .plain, o.isMention = true)
    (hm : m ∈ tree.preorder) (hplain : m.isPlainCall = true) :
    ∃ fresh, b.callees.get? m.id = some fresh := by
  obtain ⟨name, callee, arguments, hcall⟩ := h.fit.exists_call hm hplain
  have hsettles : b.Settles name m.id := by
    rw [h.names]
    exact Names.settles_of_mem (fun o ho => Occurrence.isFlat_of_isMention (hmentions o ho)) hcall
  refine hsettles.resolve_left ?_
  rw [h.names]
  exact Names.not_knowsType_foldl hmentions (Names.not_knowsType_initial _ _) name

/-- A tree of expressions is bound, and the program is its content. -/
theorem Program.parse_of_allQuiet {text : String} {options : Options} {tree : Node}
    (htree : Program.readText text options = .ok tree)
    (hstrict : options.strict = false) (hquiet : tree.content.AllQuiet) :
    ∃ p, Program.parse text options = .ok p ∧ p.root.erase = tree.content := by
  rw [← content_number tree 0] at hquiet ⊢
  have hfit := number_allFit (readTree_allFit htree) 0
  have hmentions := hfit.isMention hquiet
  obtain ⟨b, hbind, hparse⟩ := Program.parse_of_readTree hstrict htree
  have hbound := Program.boundAs_of_ofTree htree hbind
  refine ⟨_, hparse, ?_⟩
  exact hfit.erase_exchangeCallees fun m hm hplain => hbound.exists_callee hmentions hm hplain

/-! ### Expressions -/

/-- Expressions are made of quiet nodes. -/
theorem Node.IsExpression.allQuiet {e : Node} (h : e.IsExpression) : e.erase.AllQuiet := by
  have hnode : ∀ {kind : Kind} {id : NodeId} {span : Option Span} {ps : List Part},
      kind.isQuiet = true → (∀ c ∈ ps.flatMap nodes, c.erase.AllQuiet) →
      (Node.mk kind id span ps).erase.AllQuiet :=
    fun hkind hps => allQuiet_erase hkind (by simpa using hps)
  induction h with
  | identifier | literal => exact hnode rfl (by simp [nodes])
  | group _ _ _ ih | unary _ _ _ ih | sequence _ _ _ _ ih =>
    exact hnode rfl (by simpa [nodes] using ih)
  | binary _ _ _ _ _ ihleft ihright | assignment _ _ _ _ _ ihleft ihright =>
    exact hnode rfl (by simpa [nodes] using ⟨ihleft, ihright⟩)
  | @index _ id _ span opening closing _ inner _ _ _ _ _ ih ihinner =>
    have hbrackets : (Node.mk .arraySpecifier id span
        [.token opening, .optChild inner, .token closing]).erase.AllQuiet :=
      hnode rfl (by simpa [nodes] using ihinner)
    exact hnode rfl (by simpa [nodes] using ⟨ih, hbrackets⟩)
  | @step _ id _ span t _ _ _ _ ih =>
    have hoperator : (Node.mk .postfixOperator id span [.token t]).erase.AllQuiet :=
      hnode rfl (by simp [nodes])
    exact hnode rfl (by simpa [nodes] using ⟨ih, hoperator⟩)
  | @field _ id _ span dot name _ _ _ _ _ ih =>
    have hselection : (Node.mk .fieldSelection id span
        [.token dot, .token name]).erase.AllQuiet := hnode rfl (by simp [nodes])
    exact hnode rfl (by simpa [nodes] using ⟨ih, hselection⟩)
  | @call _ id _ span name _ _ _ _ _ _ _ _ _ _ ih =>
    have hcallee : (Node.mk .identifier id span [.token name]).erase.AllQuiet :=
      hnode rfl (by simp [nodes])
    exact hnode rfl (by simpa [nodes] using ⟨hcallee, ih⟩)
  | @method _ id id' _ span span' dot name _ _ e _ _ _ _ _ _ _ _ _ _ _ ih iharguments =>
    have hselection : (Node.mk .fieldSelection id' span'
        [.token dot, .token name]).erase.AllQuiet := hnode rfl (by simp [nodes])
    have hcallee : (Node.mk .postfixExpr id span [.child e, .child (.mk .fieldSelection id' span'
        [.token dot, .token name])]).erase.AllQuiet :=
      hnode rfl (by simpa [nodes] using ⟨ih, hselection⟩)
    exact hnode rfl (by simpa [nodes] using ⟨hcallee, iharguments⟩)
  | ternary _ _ _ _ _ _ _ ihcondition ihvalue ihalternate =>
    exact hnode rfl (by simpa [nodes] using ⟨ihcondition, ihvalue, ihalternate⟩)

theorem Node.eq_of_erase_eq_program {n m : Node}
    (h : n.erase = .mk .program NodeId.detached none [.text "", .list [m.erase]]) :
    ∃ item, n.kind = .program ∧ n.parts = [.text "", .list [item]] ∧ item.erase = m.erase := by
  obtain ⟨k, id, span, ps⟩ := n
  rw [erase_mk, Node.mk.injEq] at h
  obtain ⟨rfl, -, -, hparts⟩ := h
  obtain ⟨p, ps, rfl, hp, hparts⟩ := map_eq_cons_iff.mp hparts
  obtain ⟨q, ps, rfl, hq, hparts⟩ := map_eq_cons_iff.mp hparts
  obtain rfl := map_eq_nil_iff.mp hparts
  cases p <;> simp only [mapNodes, reduceCtorEq, Part.text.injEq] at hp
  cases q <;> simp only [mapNodes, reduceCtorEq, list.injEq] at hq
  obtain ⟨item, items, rfl, hitem, hitems⟩ := map_eq_cons_iff.mp hq
  obtain rfl := map_eq_nil_iff.mp hitems
  exact ⟨item, rfl, by rw [hp]; rfl, hitem⟩

/-- **Parsing undoes printing for expressions.** The source of an expression that obeys the order of
the grammar is read as a program of which the expression is the only item, unless it is nested too
deeply. -/
theorem Program.parse_source_of_isExpression {e : Node} (h : e.IsExpression) {options : Options}
    (hstart : options.start = .expression) (hstrict : options.strict = false) :
    (∃ span, Program.parse e.source options = .error (.nestingTooDeep span)) ∨
      ∃ p item, Program.parse e.source options = .ok p ∧ p.root.kind = .program ∧
        p.root.parts = [.text "", .list [item]] ∧ item.same e = true := by
  obtain ⟨hleading, hpath⟩ := h.path options.located
  have hfinal : (Lexemes.ofString e.source).get (Lexemes.ofString e.source).body.size =
      (Lexemes.ofString e.source).final := by
    simp [Lexemes.get]
  have hkind : (Input.lexeme ⟨Lexemes.ofString e.source, options.located⟩
      (Lexemes.ofString e.source).body.size).kind = .endOfInput := by
    rw [Input.lexeme, hfinal]
    rfl
  obtain ⟨n, hcomes, hcontent⟩ := (h.parses _).expression hpath
    (Terminal.refuses_of_kind (by rw [hkind]; decide))
  rcases readTree_of_comesTo hcomes (by rw [Lexeme.isEnd, hkind]; rfl) options.source with
    ⟨span, hdeep⟩ | htree
  · refine .inl ⟨span, ?_⟩
    rw [← hstart] at hdeep
    simp [Program.parse, Program.parseLogged, Program.readNumbered, hdeep, Except.map]
  · right
    rw [← hstart, hleading] at htree
    have hcontent' : (Node.mk .program NodeId.detached (Input.nodeSpan
          ⟨Lexemes.ofString e.source, options.located⟩ 0 (Lexemes.ofString e.source).body.size)
        [.text "", .list [n]]).content =
        .mk .program NodeId.detached none [.text "", .list [e.erase]] := by
      rw [content_mk (by decide), ← hcontent]
      rfl
    obtain ⟨p, hparse, herase⟩ := Program.parse_of_allQuiet htree hstrict (by
      rw [hcontent']
      exact allQuiet_of rfl (by simpa [Part.nodes] using h.allQuiet))
    obtain ⟨item, hkind, hparts, hitem⟩ := eq_of_erase_eq_program (herase.trans hcontent')
    exact ⟨p, item, hparse, hkind, hparts, same_of_erase hitem⟩

/-- The expression `v [ 0 ] = f ( a , b . x )`, with a blank behind every token. -/
def Node.assignedCall : Node :=
  .mk .assignment 1 none
    [.child (.mk .postfixExpr 2 none
      [.child (.mk .identifier 3 none [.token ⟨"v", " "⟩]),
        .child (.mk .arraySpecifier 4 none [.token ⟨"[", " "⟩,
          .optChild (some (.mk .literal 5 none [.token ⟨"0", " "⟩])), .token ⟨"]", " "⟩])]),
      .token ⟨"=", " "⟩,
      .child (.mk .functionCall 6 none
        [.child (.mk .identifier 7 none [.token ⟨"f", " "⟩]), .token ⟨"(", " "⟩,
          .separated [.mk .identifier 8 none [.token ⟨"a", " "⟩],
            .mk .postfixExpr 9 none [.child (.mk .identifier 10 none [.token ⟨"b", " "⟩]),
              .child (.mk .fieldSelection 11 none [.token ⟨".", " "⟩, .token ⟨"x", " "⟩])]]
            [⟨",", " "⟩],
          .token ⟨")", " "⟩])]

theorem Node.isExpression_assignedCall : assignedCall.IsExpression := by
  have hname : ∀ {id : NodeId} {t : Token}, t.Spells .identifier →
      (Node.mk .identifier id none [.token t]).IsExpression := fun h => .identifier h
  refine .assignment (.index (hname (by decide)) (by decide) (by decide) ?_ (by decide)) (by decide)
    (by decide)
    (.call (by decide) (by decide) ?_ (by simp [Node.kind]) ⟨rfl, by decide⟩ (by decide))
    (by decide)
  · rintro _ ⟨⟩
    exact .literal (by decide)
  · simp only [forall_mem_cons, not_mem_nil, false_imp_iff, implies_true, and_true]
    exact ⟨hname (by decide), .field (hname (by decide)) (by decide) (by decide) (by decide)⟩

theorem Program.parse_source_of_assignedCall :
    ∃ p item, Program.parse Node.assignedCall.source ⟨false, false, false, none, .expression⟩ =
      .ok p ∧ p.root.kind = .program ∧ p.root.parts = [.text "", .list [item]] ∧
      item.same Node.assignedCall = true := by
  refine Or.resolve_left
    (Program.parse_source_of_isExpression isExpression_assignedCall rfl rfl) ?_
  rintro ⟨span, hdeep⟩
  have hok : (Program.parse Node.assignedCall.source
      ⟨false, false, false, none, .expression⟩).isOk = true := by decide +kernel
  rw [hdeep] at hok
  cases hok

end ShaderSource
