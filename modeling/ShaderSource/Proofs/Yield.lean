import ShaderSource.Proofs.Lexing
import ShaderSource.Proofs.ProductionNodes
import ShaderSource.Proofs.Tokens

/-!
# What a derivation yields

A derivation from one place to another yields a tree whose tokens are those of the lexemes in
between, one after the other. With it goes what only a tree that was just read has: its names are
names in the source too, and the callee of a call is never a name on its own. (Later, when it is
known which callees are functions, their names take the place of the types they were read as.)

Both are properties of the productions, and are checked on them once: parts that no lexeme goes into
hold no token, names are made of one terminal that is a name, and calls are made around a type or
around the selection of a method.

## Main results

* `Derives.yields`: the tokens of a derived tree are those of its lexemes.
* `readTree_yields`: the tree of a source has the tokens of the source.
-/

namespace ShaderSource

open Item List Node ShaderSource.Part

variable {n : Node} {kind : Kind} {id : NodeId} {span : Option Span} {ps : List Part} {i : Nat}

/-! ### Nodes as they are read -/

/-- A node as it is read: a name has the token of a name, and the callee of a call is no name on its
own. -/
structure Node.AsRead (n : Node) : Prop where
  name : n.kind.IsName → ∃ t, n.parts = [.token t] ∧ Scan.isIdentifier t.text = true
  callee : n.kind = .functionCall → ∀ c ps, n.parts = .child c :: ps → c.kind ≠ .identifier

/-- A node and all nodes below it are as they are read. -/
def Node.AllRead (n : Node) : Prop :=
  ∀ m ∈ n.preorder, m.AsRead

/-- Parts that are alike, with nodes of the same kinds, make nodes that are both as they are read
or both not. -/
theorem Node.AsRead.alike {R : Node → Node → Prop} {id' : NodeId} {span' : Option Span}
    {qs : List Part} (h : (Node.mk kind id span ps).AsRead)
    (hps : List.Forall₂ (Part.Alike R) ps qs) (hkind : ∀ n m, R n m → m.kind = n.kind) :
    (Node.mk kind id' span' qs).AsRead := by
  constructor
  · intro hname
    obtain ⟨t, hparts, ht⟩ := h.name hname
    rw [parts] at hparts
    subst hparts
    cases hps with
    | cons hp hps =>
      cases hp
      cases hps
      exact ⟨t, rfl, ht⟩
  · intro hcall c qs' hqs
    rw [parts] at hqs
    subst hqs
    cases hps with
    | cons hp hps =>
      cases hp with
      | @child n _ hR =>
        rw [hkind n c hR]
        exact h.callee hcall n _ rfl

/-- Numbering keeps nodes as they are read. -/
theorem Node.AllRead.number (h : n.AllRead) (last : NodeId) : (n.number last).1.AllRead := by
  intro m hm
  obtain ⟨⟨k, i, s, ps⟩, hm', last', rfl⟩ := mem_number hm
  rw [Node.number]
  exact (h _ hm').alike (Node.number_alike (fun n _ => n.kind_number) _) fun _ _ hR => hR

/-! ### Legible phrases -/

/-- Whether the kind is neither that of a name nor that of a call. -/
def Kind.isOrdinary (kind : Kind) : Bool :=
  kind != .identifier && kind != .typeName && kind != .functionCall

/-- Whether nodes of the kind with parts from these items are as they are to be read. -/
def Kind.readsFrom : Kind → List Item → Bool
  | .identifier, [.token .identifier] => true
  | .typeName, [.token .identifier] => true
  | .functionCall, .child (.rule .typeSpecifier) :: _ => true
  | kind, _ => kind.isOrdinary

/-- Whether the nodes that are made so are as they are to be read. A suffix may make a call only
around a node that another one made. -/
def Making.reads : Making → Bool
  | .whole kind items => kind.readsFrom items
  | .around (.made .postfixExpr) .functionCall _ => true
  | .around _ kind _ => kind.isOrdinary
  | .joined kind => kind.isOrdinary

/-- Whether the item holds no token that is not one of a lexeme. -/
def Item.isLegible : Item → Bool
  | .token t => t != .endOfInput
  | .presentToken t => t != .endOfInput
  | .empty part => part.tokens.isEmpty
  | _ => true

theorem Grammar.makes_legible : Grammar.Makes Making.reads isLegible where
  rules r := by
    cases r with
    | binary level => rfl
    | _ => decide +kernel
  initializer := by decide +kernel

theorem Start.phrase_legible (start : Start) :
    start.phrase.makes Making.reads isLegible = true := by
  cases start <;> decide +kernel

/-! ### What is read from legible phrases -/

theorem Kind.ne_of_isOrdinary (h : kind.isOrdinary = true) :
    ¬kind.IsName ∧ kind ≠ .functionCall := by
  simp only [Kind.isOrdinary, Bool.and_eq_true, bne_iff_ne] at h
  refine ⟨?_, h.2⟩
  rintro (rfl | rfl)
  · exact h.1.1 rfl
  · exact h.1.2 rfl

theorem Node.asRead_of_isOrdinary (h : n.kind.isOrdinary = true) : n.AsRead :=
  ⟨fun hname => absurd hname (Kind.ne_of_isOrdinary h).1,
    fun hcall => absurd hcall (Kind.ne_of_isOrdinary h).2⟩

/-- The lexemes of the input that are names have the texts of names. -/
def Input.NamesRight (input : Input) : Prop :=
  ∀ k, (input.lexeme k).kind = .identifier → Scan.isIdentifier (input.lexeme k).text = true

/-- A node with parts from items that its kind is to be read from is as it is to be read. -/
theorem Derives.asRead {input : Input} (hnames : input.NamesRight) {items : List Item} {j : Nat}
    (h : Derives input (.parts items ps) i j) (hreads : kind.readsFrom items = true) (id : NodeId)
    (span : Option Span) : (Node.mk kind id span ps).AsRead := by
  have hname : ∀ {kind : Kind} {items : List Item}, items = [.token .identifier] →
      Derives input (.parts items ps) i j → kind ≠ .functionCall →
      (Node.mk kind id span ps).AsRead := by
    rintro kind _ rfl h hkind
    refine ⟨fun _ => ?_, fun hcall => absurd hcall hkind⟩
    cases h with
    | cons hitem hrest =>
      cases hrest
      cases hitem with
      | token haccepts =>
        refine ⟨_, rfl, hnames _ ?_⟩
        simpa [Terminal.accepts] using haccepts
  unfold Kind.readsFrom at hreads
  split at hreads
  · exact hname rfl h (by decide)
  · exact hname rfl h (by decide)
  · constructor
    · rintro (hkind | hkind) <;> cases hkind
    · rintro - c ps' heq hkind
      cases h with
      | cons hitem _ =>
        cases hitem with
        | @child _ n _ _ hn =>
          obtain ⟨hc, -⟩ := cons.inj heq
          cases hc
          have hmem := (hn.fitting rfl).1
          rw [hkind] at hmem
          revert hmem
          decide
  · exact asRead_of_isOrdinary hreads

theorem Terminal.not_isEnd_of_accepts {t : Terminal} {l : Lexeme} (ht : (t != .endOfInput) = true)
    (h : t.accepts l = true) : l.isEnd = false := by
  rw [Lexeme.isEnd, beq_eq_false_iff_ne]
  intro hkind
  cases t <;> simp [Terminal.accepts, Terminal.isKeyword, hkind] at h ht

/-- The tokens of nodes with a separator before each. -/
def tailTokens : List (Token × Node) → List Token
  | [] => []
  | (t, n) :: rest => t :: n.tokens ++ tailTokens rest

/-- A separated list as it is read, with a separator after the last node or without. -/
theorem Node.separatedTokens_tail (n : Node) (rest : List (Token × Node)) (last : Option Token) :
    separatedTokens (n :: rest.map Prod.snd) (rest.map Prod.fst ++ last.toList) =
      n.tokens ++ tailTokens rest ++ last.toList := by
  induction rest generalizing n with
  | nil => cases last <;> simp [separatedTokens, separatorTokens, tailTokens]
  | cons a rest ih =>
    obtain ⟨t, m⟩ := a
    rw [map_cons, map_cons, cons_append, separatedTokens, tail_cons,
      ih m]
    simp [separatorTokens, tailTokens]

theorem Part.tokens_separatedPart (n : Node) (rest : List (Token × Node)) :
    (Parser.separatedPart n rest).tokens = n.tokens ++ tailTokens rest := by
  have h := separatedTokens_tail n rest none
  simpa [Parser.separatedPart, Part.tokens] using h

theorem Part.tokensAll_append (ps qs : List Part) :
    Part.tokensAll (ps ++ qs) = Part.tokensAll ps ++ Part.tokensAll qs := by
  rw [Part.tokensAll_eq, Part.tokensAll_eq, Part.tokensAll_eq, flatMap_append]

/-- What is made as it is to be read is so. -/
theorem Making.Makes.asRead {input : Input} (hnames : input.NamesRight) {making : Making}
    (hreads : making.reads = true) (h : making.Makes input n) : n.AsRead := by
  cases h with
  | whole hps => exact hps.asRead hnames hreads _ _
  | around hinner _ =>
    unfold Making.reads at hreads
    split at hreads
    case h_2 heq =>
      cases heq
      constructor
      · rintro (hkind | hkind) <;> cases hkind
      · rintro - c ps' heq
        obtain ⟨hc, -⟩ := cons.inj heq
        cases hc
        rw [show _ = _ from hinner]
        decide
    case h_3 heq =>
      cases heq
      exact asRead_of_isOrdinary hreads
    all_goals rename_i heq; cases heq
  | joined => exact asRead_of_isOrdinary hreads

/-- What a judgement says about the tokens that are left at both of its ends, if what it is about
is legible. -/
def Judgement.Yields (ok : Making → Bool) (left : Nat → List Token) (i j : Nat) : Judgement → Prop
  | .node p n => p.makes ok isLegible = true → n.tokens ++ left j = left i
  | .suffix ss _ head n | .suffixes ss _ _ head n =>
    ∀ inner, Suffix.makesAll ok isLegible inner ss = true →
      n.tokens ++ left j = head.tokens ++ left i
  | .parts items ps =>
    makesAll ok isLegible items = true → Part.tokensAll ps ++ left j = left i
  | .item it ps => it.makes ok isLegible = true → Part.tokensAll ps ++ left j = left i
  | .list p ns => p.makes ok isLegible = true → Node.tokensAll ns ++ left j = left i
  | .tail p rest => p.makes ok isLegible = true → tailTokens rest ++ left j = left i

/-- A legible derivation yields the tokens of its lexemes. -/
theorem Derives.yields {input : Input} {ok : Making → Bool}
    (hgrammar : Grammar.Makes ok isLegible) {left : Nat → List Token}
    (hleft : ∀ k, (input.lexeme k).isEnd = false →
      left k = (input.lexeme k).token :: left (k + 1))
    {J : Judgement} {j : Nat} (h : Derives input J i j) : J.Yields ok left i j := by
  have haccepted : ∀ {t : Terminal} {k : Nat}, (t != .endOfInput) = true →
      t.accepts (input.lexeme k) = true → left k = (input.lexeme k).token :: left (k + 1) :=
    fun ht h => hleft _ (Terminal.not_isEnd_of_accepts ht h)
  induction h with
  | node _ ih | second _ ih | no _ ih | alone _ ih =>
    exact fun hok => ih (Bool.and_eq_true_iff.mp hok).2
  | rule _ ih => exact fun _ => ih (hgrammar.rules _)
  | initializer _ ih => exact fun _ => ih hgrammar.initializer
  | first _ ih | yes _ ih => exact fun hok => ih (Bool.and_eq_true_iff.mp hok).1
  | suffixed _ _ _ ihhead ihsuffixes =>
    intro hok
    simp only [Phrase.makes, Bool.and_eq_true] at hok
    exact (ihsuffixes _ hok.2).trans (ihhead hok.1)
  | joined _ _ _ ihn ihrest =>
    intro hok
    simp only [Phrase.makes, Bool.and_eq_true] at hok
    rw [Node.tokens, Part.tokensAll, Part.tokensAll, tokens_separatedPart, append_nil,
      append_assoc, ihrest hok.2, ihn hok.2]
  | suffix _ ih =>
    intro inner hok
    simp only [Suffix.makesAll, Bool.and_eq_true] at hok
    rw [Node.tokens, Part.tokensAll, Part.tokens, append_assoc, ih hok.1.1.2]
  | follow _ _ ihps ihn =>
    intro inner hok
    simp only [Suffix.makesAll, Bool.and_eq_true] at hok
    rw [ihn _ hok.1.2, Node.tokens, Part.tokensAll, Part.tokens, append_assoc,
      ihps hok.1.1.2]
  | @other suffix _ _ _ _ _ _ _ ih =>
    intro inner hok
    cases suffix
    simp only [Suffix.makesAll, Bool.and_eq_true] at hok
    exact ih inner hok.2
  | stop => exact fun _ _ => rfl
  | nil | forbid | listNil | tailNil => exact fun _ => rfl
  | more _ _ ihmid ihn => exact fun inner hok => (ihn inner hok).trans (ihmid inner hok)
  | cons _ _ ihps ihqs =>
    intro hok
    simp only [makesAll, Bool.and_eq_true] at hok
    rw [tokensAll_append, append_assoc, ihqs hok.2, ihps hok.1]
  | token haccepts | presentToken haccepts => exact fun hok => (haccepted hok haccepts).symm
  | child _ ih | present _ ih | optional _ ih | list _ _ ih =>
    intro hok
    simpa [Part.tokensAll, Part.tokens] using ih hok
  | absent | none _ => exact fun _ => by simp [Part.tokensAll, Part.tokens, separatedTokens]
  | separated _ _ ihn ihrest =>
    intro hok
    rw [Part.tokensAll, Part.tokensAll, tokens_separatedPart, append_nil,
      append_assoc, ihrest hok, ihn hok]
  | @trailing _ n rest _ _ k _ _ hcomma ihn ihrest =>
    intro hok
    have hlist := separatedTokens_tail n rest (some (input.lexeme k).token)
    rw [Option.toList_some] at hlist
    rw [Part.tokensAll, Part.tokensAll, Part.tokens, hlist, append_nil, append_assoc,
      singleton_append, ← haccepted (by decide) hcomma, append_assoc, ihrest hok,
      ihn hok]
  | single _ ih =>
    intro hok
    simpa [Part.tokensAll, Part.tokens, separatedTokens, separatorTokens] using ih hok
  | branch haccepts _ ih =>
    intro hok
    simp only [Item.makes, Bool.and_eq_true] at hok
    rw [Part.tokensAll, Part.tokensAll, Part.tokens, append_nil, cons_append, ih hok.2,
      haccepted hok.1 haccepts]
  | empty =>
    intro hok
    simp only [Item.makes, Item.isLegible, Bool.and_eq_true, List.isEmpty_iff] at hok
    simp [Part.tokensAll, hok.1]
  | itemsYes _ ih => exact fun hok => ih (Bool.and_eq_true_iff.mp hok).1
  | itemsNo _ ih => exact fun hok => ih (Bool.and_eq_true_iff.mp hok).2
  | listCons _ _ ihn ihns =>
    intro hok
    rw [Node.tokensAll, append_assoc, ihns hok, ihn hok]
  | tailCons hcomma _ _ ihn ihrest =>
    intro hok
    rw [tailTokens, cons_append, cons_append, append_assoc, ihrest hok, ihn hok,
      haccepted (by decide) hcomma]

/-! ### Whole sources -/

/-- The tokens that are left at a place. -/
def Lexemes.tokensFrom (ls : Lexemes) (i : Nat) : List Token :=
  (ls.body.toList.drop i).map Lexeme.token

/-- What stands at a place of a source: a lexeme of it, or its end. -/
theorem Lexemes.get_cases (text : String) (i : Nat) :
    ((ofString text).get i ∈ (ofString text).body.toList ∧
        ((ofString text).get i).isEnd = false ∧
        (ofString text).tokensFrom i =
          ((ofString text).get i).token :: (ofString text).tokensFrom (i + 1)) ∨
      (((ofString text).get i).isEnd = true ∧ (ofString text).tokensFrom i = []) := by
  by_cases hi : i < (ofString text).body.size
  · left
    have hget : (ofString text).get i = (ofString text).body[i] := by simp [get, hi]
    have hmem : (ofString text).get i ∈ (ofString text).body := by
      rw [hget]
      exact Array.getElem_mem hi
    refine ⟨Array.mem_toList_iff.mpr hmem, (ofString_tiles text).body_not_end _ hmem, ?_⟩
    rw [tokensFrom, tokensFrom, drop_eq_getElem_cons (by simpa using hi), map_cons, hget]
    simp
  · right
    have hget : (ofString text).get i = (ofString text).final := by
      simp [get, hi]
    rw [hget, tokensFrom, drop_eq_nil_of_le (by simpa using hi)]
    exact ⟨rfl, rfl⟩

theorem Lexemes.size_le_of_isEnd {text : String} (h : ((ofString text).get i).isEnd = true) :
    (ofString text).body.size ≤ i := by
  refine Nat.le_of_not_lt fun hi => ?_
  have hmem : (ofString text).get i ∈ (ofString text).body := by simp [get, hi]
  rw [(ofString_tiles text).body_not_end _ hmem] at h
  cases h

theorem Lexemes.namesRight (text : String) (located : Bool) :
    (Input.mk (ofString text) located).NamesRight := by
  intro k hkind
  rcases get_cases text k with ⟨hmem, -⟩ | ⟨hend, -⟩
  · exact (identifier_iff hmem).mp hkind
  · rw [Lexeme.isEnd, show ((ofString text).get k).kind = .identifier from hkind] at hend
    cases hend

/-- **The tree of a source has its tokens**: first the text before the first lexeme, then the
lexemes, one after the other. All names in it are names in the source. -/
theorem readTree_yields {start : Start} {text : String} {located : Bool} {source : Option String}
    {root : Node} (h : readTree start ⟨Lexemes.ofString text, located⟩ source = .ok root) :
    root.tokens = ⟨"", (Lexemes.ofString text).leading⟩ ::
        (Lexemes.ofString text).body.toList.map Lexeme.token ∧
      root.AllRead := by
  obtain ⟨ns, j, hroot, hns, hend, -⟩ := readTree_sound h
  have hleft : ∀ k, (Input.lexeme ⟨Lexemes.ofString text, located⟩ k).isEnd = false →
      (Lexemes.ofString text).tokensFrom k =
        (Input.lexeme ⟨Lexemes.ofString text, located⟩ k).token ::
          (Lexemes.ofString text).tokensFrom (k + 1) := by
    intro k hk
    rcases Lexemes.get_cases text k with ⟨-, -, htokens⟩ | ⟨hend, -⟩
    · exact htokens
    · cases hk.symm.trans hend
  have hdone : (Lexemes.ofString text).tokensFrom j = [] := by
    rcases Lexemes.get_cases text j with ⟨-, hk, -⟩ | ⟨-, hnil⟩
    · rw [show ((Lexemes.ofString text).get j).isEnd = true from hend] at hk
      cases hk
    · exact hnil
  have htokens := hns.yields Grammar.makes_legible hleft start.phrase_legible
  rw [hdone, append_nil] at htokens
  constructor
  · rw [hroot, Node.tokens, Part.tokensAll, Part.tokensAll, Part.tokensAll, Part.tokens,
      Part.tokens, htokens, Lexemes.tokensFrom, append_nil, drop_zero,
      singleton_append]
  · exact readTree_makes Grammar.makes_legible start.phrase_legible
      (fun _ _ hreads hmade => hmade.asRead (Lexemes.namesRight text located) hreads)
      (fun _ _ _ => asRead_of_isOrdinary rfl) h

end ShaderSource
