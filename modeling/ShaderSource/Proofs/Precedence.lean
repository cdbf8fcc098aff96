import ShaderSource.Proofs.ProgramRenaming

/-!
# Precedence

The tree of an expression groups operators by precedence. Operators of one level stand in each other
on the left, so operations of one level are taken from the left to the right; on the right of an
operator only tighter ones stand. Conditions, assignments and sequences stand only where the grammar
has their rules.

What kinds of nodes stand where is a matter of forms (`Node.AllFit`). Two things are not: the levels
of binary operators, and that a sequence has more than one item. For these it matters how the
productions make nodes (`Making`): binary operations are made by suffixes only, whose operators are
those of the level around which they are read, with operands of the next tighter level.

## Main results

* `Derives.bindsFrom`: what an operator of a level takes as its operands.
* `Making.Makes.graded`: what the productions make is graded.
* `Program.ordered_of_parse`: expressions of a program respect precedence and associativity.
-/

namespace ShaderSource

open Item List Node ShaderSource.Part

variable {level : Fin 11} {n : Node} {items : List Item} {kind : Kind} {id : NodeId}
  {span : Option Span} {ps : List Part}

/-! ### Levels -/

/-- The level of a binary operator, the loosest level first. -/
def Grammar.levelOf? (operator : String) : Option (Fin 11) :=
  (List.finRange 11).find? fun level => (binaryOperators level).contains operator

/-- An operator is in its level only. -/
theorem Grammar.levelOf?_eq_some {operator : String} (h : operator ∈ binaryOperators level) :
    levelOf? operator = some level := by
  have hall : ∀ level : Fin 11, ∀ operator ∈ binaryOperators level,
      levelOf? operator = some level := by
    decide +kernel
  exact hall level operator h

/-- The token that a part is. -/
def Part.token? : Part → Option Token
  | .token t => some t
  | _ => none

/-- The level of a binary operation, by its operator. -/
def Node.level? (n : Node) : Option (Fin 11) :=
  if n.kind = .binary then
    (n.parts[1]?.bind token?).bind fun t => Grammar.levelOf? t.text
  else none

/-- The node can be an operand where operators of the given level or tighter ones may stand: it is a
binary operation of such a level, or an operand with or without operators in front. -/
def Node.BindsFrom (level : Nat) (n : Node) : Prop :=
  n.kind ∈ Kind.unaries ∨ ∃ l, n.level? = some l ∧ level ≤ l.val

theorem Node.BindsFrom.mono {level level' : Nat} (h : n.BindsFrom level) (hle : level' ≤ level) :
    n.BindsFrom level' := by
  rcases h with hkind | ⟨l, hl, hlevel⟩
  · exact .inl hkind
  · exact .inr ⟨l, hl, Nat.le_trans hle hlevel⟩

/-! ### Nodes in order -/

/-- What forms do not say about operations and sequences. -/
structure Node.Graded (n : Node) : Prop where
  /-- Binary operations of one level are taken from the left to the right: the left operand is of
  the same level or a tighter one, the right operand of a tighter one. -/
  binary : n.kind = .binary → ∃ left t right level,
    n.parts = [.child left, .token t, .child right] ∧ Grammar.levelOf? t.text = some level ∧
      left.BindsFrom level ∧ right.BindsFrom (level + 1)
  /-- A sequence has at least two items. -/
  sequence : n.kind = .sequence → ∃ ns ts, n.parts = [.separated ns ts] ∧ 2 ≤ ns.length

/-- A node and all nodes below it are graded. -/
def Node.AllGraded (n : Node) : Prop :=
  ∀ m ∈ n.preorder, m.Graded

/-- The node respects precedence and associativity. -/
structure Node.Ordered (n : Node) : Prop extends n.Graded where
  unary : n.kind = .unary → ∃ t e, n.parts = [.token t, .child e] ∧ e.kind ∈ Kind.unaries
  suffixed : n.kind = .postfixExpr → ∃ e s, n.parts = [.child e, .child s] ∧
    e.kind ∈ [.postfixExpr, .functionCall, .identifier, .literal, .group]
  /-- Assignments are taken from the right to the left. -/
  assignment : n.kind = .assignment → ∃ left t right,
    n.parts = [.child left, .token t, .child right] ∧ left.kind ∈ Kind.unaries ∧
      right.kind ∈ Kind.assignments ∧ right.kind ≠ .sequence
  ternary : n.kind = .ternary → ∃ condition question value colon alternate,
    n.parts = [.child condition, .token question, .child value, .token colon, .child alternate] ∧
      condition.kind ∉ [.assignment, .ternary, .sequence] ∧ alternate.kind ≠ .sequence
  /-- The items of a sequence are no sequences. -/
  items : n.kind = .sequence → ∀ m ∈ n.children, m.kind ≠ .sequence

/-- Nodes that fit and are graded respect precedence. -/
theorem Node.Fits.ordered (hfits : n.Fits) (hgraded : n.Graded) : n.Ordered := by
  refine ⟨hgraded, fun hkind => ?_, fun hkind => ?_, fun hkind => ?_, fun hkind => ?_,
    fun hkind => ?_⟩
  · exact hfits.kind_cases hkind fun _ _ t e he => ⟨t, e, rfl, he⟩
  · refine hfits.kind_cases hkind fun _ _ e he s _ => ⟨e, s, rfl, ?_⟩
    revert he
    cases e.kind <;> decide
  · refine hfits.kind_cases hkind fun _ _ left hleft t right hright =>
      ⟨left, t, right, rfl, hleft, hright, ?_⟩
    revert hright
    cases right.kind <;> decide
  · refine hfits.kind_cases hkind fun _ _ c hc q v _ colon a ha => ⟨c, q, v, colon, a, rfl, ?_, ?_⟩
    · revert hc
      cases c.kind <;> decide
    · revert ha
      cases a.kind <;> decide
  · refine hfits.kind_cases hkind fun _ _ ns ts hns m hm => ?_
    have hm := hns m (by simpa [Part.nodes] using hm)
    revert hm
    cases m.kind <;> decide

/-! ### Operations as they are read -/

/-- The items that read an operation of the level behind its left side. -/
def Grammar.operationItems (level : Fin 11) : List Item :=
  [.token (.punct (binaryOperators level)), .child (.rule (operand level))]

/-- The parts are an operator of the level and an operand for its right side. -/
def Part.IsOperation (level : Fin 11) (ps : List Part) : Prop :=
  ∃ t c, ps = [.token t, .child c] ∧ t.text ∈ Grammar.binaryOperators level ∧
    c.BindsFrom (level + 1)

section Derivations

variable {input : Input} {i j : Nat} {head : Node}

/-- An operation is of the level of its operator. -/
theorem Derives.level?_operation (h : Derives input (.parts (Grammar.operationItems level) ps) i j)
    (id : NodeId) (span : Option Span) :
    (Node.mk .binary id span (.child head :: ps)).level? = some level := by
  cases h with
  | cons hitem _ =>
    cases hitem with
    | token haccepts =>
      simp only [Terminal.accepts, Bool.and_eq_true, contains_iff_mem] at haccepts
      exact Grammar.levelOf?_eq_some haccepts.2

/-- What suffixes make is the node that they stand behind, or made by one of them. -/
theorem Derives.suffixes_cases {ss : List Suffix} {count start : Nat}
    (h : Derives input (.suffixes ss count start head n) i j) :
    n = head ∨ ∃ mid i j, Derives input (.suffix ss start mid n) i j := by
  generalize hJ : Judgement.suffixes ss count start head n = J at h
  induction h generalizing count head with
  | stop =>
    cases hJ
    exact .inl rfl
  | more hmid _ _ ih =>
    cases hJ
    rcases ih rfl with rfl | hlast
    · exact .inr ⟨_, _, _, hmid⟩
    · exact .inr hlast
  | _ => cases hJ

/-- An operation that a suffix of the level has made. -/
theorem Derives.level?_suffix {start : Nat}
    (h : Derives input (.suffix [.mk .binary (Grammar.operationItems level) []] start head n) i j) :
    n.level? = some level := by
  cases h with
  | suffix hps => exact hps.level?_operation _ _
  | follow _ hnext => cases hnext
  | other hnext => cases hnext

/-- What an operator of a level takes as its operands binds from the next level. -/
theorem Derives.bindsFrom (h : Derives input (.node (.rule (Grammar.operand level)) n) i j) :
    n.BindsFrom (level + 1) := by
  -- The tightest level takes operands without binary operators.
  obtain ⟨k, hk⟩ : ∃ k, level.val + k = 10 := ⟨10 - level.val, by omega⟩
  induction k generalizing level n i j with
  | zero =>
    rw [Grammar.operand, dif_neg (by omega)] at h
    exact .inl ((h.fitting rfl).1)
  | succ k ih =>
    rw [Grammar.operand, dif_pos (by omega)] at h
    cases h with
    | rule h =>
      cases h with
      | suffixed _ hhead hsuffixes =>
        rcases hsuffixes.suffixes_cases with rfl | ⟨_, _, _, hsuffix⟩
        · exact (ih hhead (by simp; omega)).mono (Nat.le_succ _)
        · exact .inr ⟨_, hsuffix.level?_suffix, Nat.le_refl _⟩

theorem Derives.isOperation (h : Derives input (.parts (Grammar.operationItems level) ps) i j) :
    IsOperation level ps := by
  cases h with
  | cons hitem hrest =>
    cases hitem with
    | token haccepts =>
      simp only [Terminal.accepts, Bool.and_eq_true, contains_iff_mem] at haccepts
      cases hrest with
      | cons hoperand hnil =>
        cases hnil
        cases hoperand with
        | child hn => exact ⟨_, _, rfl, haccepts.2, hn.bindsFrom⟩

/-- Whether the items read an operation of the level. -/
def Item.isOperation (level : Fin 11) : List Item → Bool
  | [.token (.punct operators), .child (.rule r)] =>
    operators == Grammar.binaryOperators level && r == Grammar.operand level
  | _ => false

theorem Item.of_isOperation (h : isOperation level items = true) :
    items = Grammar.operationItems level := by
  unfold isOperation at h
  split at h
  · rw [Bool.and_eq_true, beq_iff_eq, beq_iff_eq] at h
    rw [h.1, h.2, Grammar.operationItems]
  · cases h

/-- Whether operations are made level by level, and sequences only of several items. -/
def Making.graded : Making → Bool
  | .around (.read (.rule r) [.mk .binary made []]) .binary items =>
    (List.finRange 11).any fun level =>
      r == Grammar.operand level && isOperation level made && isOperation level items
  | .whole kind _ | .around _ kind _ => kind != .binary && kind != .sequence
  | .joined kind => kind != .binary

theorem Grammar.makes_graded : Grammar.Makes Making.graded fun _ => true where
  rules r := by
    cases r with
    | binary level => revert level; decide +kernel
    | _ => decide +kernel
  initializer := by decide +kernel

theorem Start.phrase_graded (start : Start) :
    start.phrase.makes Making.graded (fun _ => true) = true := by
  cases start <;> decide +kernel

theorem Node.graded_of_kind (hbinary : n.kind ≠ .binary) (hsequence : n.kind ≠ .sequence) :
    n.Graded :=
  ⟨fun hkind => absurd hkind hbinary, fun hkind => absurd hkind hsequence⟩

/-- What is made level by level is graded. -/
theorem Making.Makes.graded {making : Making} (hgraded : making.graded = true)
    (h : making.Makes input n) : n.Graded := by
  unfold Making.graded at hgraded
  split at hgraded
  · simp only [any_eq_true, Bool.and_eq_true, beq_iff_eq] at hgraded
    obtain ⟨level, -, ⟨rfl, hmade⟩, hitems⟩ := hgraded
    obtain rfl := of_isOperation hmade
    obtain rfl := of_isOperation hitems
    cases h with
    | @around _ _ _ head _ _ _ _ hinner hps =>
      obtain ⟨t, right, rfl, ht, hright⟩ := hps.isOperation
      have hleft : head.BindsFrom level := by
        rcases hinner with ⟨_, _, hread⟩ | ⟨_, _, _, _, hsuffix⟩
        · exact hread.bindsFrom.mono (Nat.le_succ _)
        · exact .inr ⟨level, hsuffix.level?_suffix, Nat.le_refl _⟩
      exact ⟨fun _ => ⟨head, t, right, level, rfl, Grammar.levelOf?_eq_some ht, hleft, hright⟩,
        by rintro ⟨⟩⟩
  · rw [Bool.and_eq_true, bne_iff_ne, bne_iff_ne] at hgraded
    cases h
    exact graded_of_kind hgraded.1 hgraded.2
  · rw [Bool.and_eq_true, bne_iff_ne, bne_iff_ne] at hgraded
    cases h
    exact graded_of_kind hgraded.1 hgraded.2
  · cases h with
    | joined hne _ =>
      refine ⟨fun hkind => absurd hkind (bne_iff_ne.mp hgraded), fun _ => ⟨_, _, rfl, ?_⟩⟩
      have hlength := length_pos_iff.mpr hne
      rw [length_cons, length_map]
      omega

end Derivations

/-! ### Trees -/

/-- All nodes of a tree that was read are graded. -/
theorem readTree_allGraded {start : Start} {input : Input} {source : Option String} {root : Node}
    (h : readTree start input source = .ok root) : root.AllGraded :=
  readTree_makes Grammar.makes_graded start.phrase_graded
    (fun _ _ hgraded hmade => hmade.graded hgraded)
    (fun _ _ _ => graded_of_kind (by simp) (by simp)) h

section Alike

variable {R : Node → Node → Prop} {kind : Kind} {id id' : NodeId} {span span' : Option Span}
  {ps qs : List Part}

theorem Part.Alike.token? {p q : Part} (h : Part.Alike R p q) : q.token? = p.token? := by
  cases h <;> rfl

/-- Nodes with alike parts are operations of the same level. -/
theorem Node.level?_alike (h : List.Forall₂ (Part.Alike R) ps qs) :
    (Node.mk kind id' span' qs).level? = (Node.mk kind id span ps).level? := by
  have htoken : qs[1]?.bind token? = ps[1]?.bind token? := by
    cases h with
    | nil => rfl
    | cons _ hrest =>
      cases hrest with
      | nil => rfl
      | cons hp _ => exact hp.token?
  simp only [Node.level?, Node.parts, htoken]
  rfl

theorem Node.BindsFrom.congr {level : Nat} {m : Node} (h : n.BindsFrom level)
    (hkind : m.kind = n.kind) (hlevel : m.level? = n.level?) : m.BindsFrom level := by
  rwa [BindsFrom, hkind, hlevel]

/-- Nodes with alike parts are graded alike. -/
theorem Node.Graded.alike (hR : ∀ n m, R n m → m.kind = n.kind ∧ m.level? = n.level?)
    (halike : List.Forall₂ (Part.Alike R) ps qs) (h : (Node.mk kind id span ps).Graded) :
    (Node.mk kind id' span' qs).Graded := by
  constructor
  · rintro ⟨⟩
    obtain ⟨left, t, right, level, hps, hlevel, hleft, hright⟩ := h.binary rfl
    obtain rfl : ps = [.child left, .token t, .child right] := hps
    obtain ⟨_, _, hfirst, htail, rfl⟩ := forall₂_cons_left_iff.mp halike
    obtain ⟨_, _, hsecond, hlast, rfl⟩ := forall₂_cons_left_iff.mp htail
    obtain ⟨_, _, hthird, hnil, rfl⟩ := forall₂_cons_left_iff.mp hlast
    cases hnil
    cases hfirst with
    | child hleft' =>
      cases hsecond
      cases hthird with
      | child hright' =>
        obtain ⟨hk, hl⟩ := hR _ _ hleft'
        obtain ⟨hk', hl'⟩ := hR _ _ hright'
        exact ⟨_, t, _, level, rfl, hlevel, hleft.congr hk hl, hright.congr hk' hl'⟩
  · rintro ⟨⟩
    obtain ⟨ns, ts, hps, hlength⟩ := h.sequence rfl
    obtain rfl : ps = [.separated ns ts] := hps
    obtain ⟨_, _, hfirst, hrest, rfl⟩ := forall₂_cons_left_iff.mp halike
    cases hrest
    cases hfirst with
    | separated hns => exact ⟨_, ts, rfl, hns.length_eq ▸ hlength⟩

end Alike

theorem Node.level?_number (n : Node) (last : NodeId) : (n.number last).1.level? = n.level? := by
  obtain ⟨kind, id, span, ps⟩ := n
  rw [Node.number]
  exact level?_alike (R := fun _ _ => True) (number_alike (fun _ _ _ => trivial) _)

theorem Node.AllGraded.number (h : n.AllGraded) (last : NodeId) : (n.number last).1.AllGraded := by
  intro m hm
  obtain ⟨⟨kind, id, span, ps⟩, hm', last', rfl⟩ := mem_number hm
  rw [Node.number]
  exact (h _ hm').alike (fun _ _ hR => hR)
    (number_alike (fun n _ last => ⟨n.kind_number last, n.level?_number last⟩) _)

theorem Node.level?_exchangeCallees (callees : Registry NodeId NodeId) (n : Node) :
    (n.exchangeCallees callees).level? = n.level? := by
  rcases n.exchangeCallees_cases callees with h | ⟨_, _, _, _, _, rfl, -, h⟩
  · rw [h]
    obtain ⟨kind, id, span, ps⟩ := n
    exact level?_alike (R := fun _ _ => True) (mapNodes_alike_all fun _ _ => trivial)
  · rw [h]
    rfl

theorem Node.AllGraded.exchangeCallees (h : n.AllGraded) (callees : Registry NodeId NodeId) :
    (n.exchangeCallees callees).AllGraded := by
  intro m hm
  rcases mem_exchangeCallees callees hm with ⟨m', hm', rfl⟩ | ⟨_, _, _, _, -, rfl⟩
  · rcases m'.exchangeCallees_cases callees with heq | ⟨_, _, _, _, _, rfl, -, heq⟩
    · rw [heq]
      obtain ⟨kind, id, span, ps⟩ := m'
      exact (h _ hm').alike (fun _ _ hR => hR) (mapNodes_alike_all fun n _ =>
        ⟨n.kind_exchangeCallees callees, n.level?_exchangeCallees callees⟩)
    · rw [heq]
      exact ⟨by rintro ⟨⟩, by rintro ⟨⟩⟩
  · exact ⟨by rintro ⟨⟩, by rintro ⟨⟩⟩

/-! ### Programs -/

/-- **Expressions respect precedence and associativity**, at every node of every program that was
read. -/
theorem Program.ordered_of_parse {text : String} {options : Options} {p : Program}
    (h : Program.parse text options = .ok p) : ∀ n ∈ p.root.preorder, n.Ordered := by
  obtain ⟨tree, b, htree, -, rfl⟩ := Program.parse_eq_ok h
  have hgraded := ((readTree_allGraded htree).number 0).exchangeCallees b.callees
  have hfit := exchangeCallees_allFit (number_allFit (readTree_allFit htree) 0) b.callees
  exact fun n hn => (hfit n hn).ordered (hgraded n hn)

/-- A source with operators of several levels, a condition, a call and a sequence. -/
theorem Program.ordered_of_parse_levels :
    ∃ p, Program.parse "int a = b - c * d - -f(e)[1] == 0 ? x, y : (z = w || v);" Options.default =
        .ok p ∧
      (p.root.preorder.filter fun n => n.kind == .binary).map Node.level? =
        [some 6, some 9, some 9, some 10, some 0] ∧
      ∀ n ∈ p.root.preorder, n.Ordered := by
  refine Program.exists_of_parse (fun p hparse h =>
    ⟨hparse, h, Program.ordered_of_parse hparse⟩) ?_
  decide +kernel

end ShaderSource
