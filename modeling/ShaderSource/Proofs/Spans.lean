import ShaderSource.Proofs.Keywords
import ShaderSource.Proofs.LexemePositions
import ShaderSource.Proofs.Lockstep
import ShaderSource.Proofs.ProgramRenaming

/-!
# Spans are exact

A node covers the lexemes from one place to before another, and its span says where the text of the
first one begins and where that of the last one ends. That is so when it is made, and nothing that
happens to the tree later changes it. From it all the rest follows: the span cuts the text of the
node out of the source, without the trivia behind the last token, the spans of the nodes right below
stand in it one after the other, and the line and the column of both ends can be counted in the text
before them.

## Main results

* `Derives.lays`: derived nodes cover the lexemes from which they are derived, and so do all nodes
  below them, one after the other.
* `Node.Covers.exact`: the span of a node that covers lexemes cuts its text out of the source.
* `Program.spans_exact`: what the spans of a program say.
-/

namespace ShaderSource

open Item Lexemes List Node ShaderSource.Part

/-! ### Nodes that cover lexemes -/

/-- Spans of lexemes that follow each other, from one place to before another. -/
inductive Laid (input : Input) : List (Option Span) → Nat → Nat → Prop
  | nil {i j} (h : i ≤ j) : Laid input [] i j
  | cons {spans i a b j} (hia : i ≤ a) (hab : a < b) (h : Laid input spans b j) :
      Laid input (input.nodeSpan a b :: spans) i j

namespace Laid

variable {input : Input} {spans spans' : List (Option Span)} {i k j : Nat}

theorem le (h : Laid input spans i j) : i ≤ j := by
  induction h with
  | nil h => exact h
  | cons hia hab _ ih => omega

theorem mono_left (h : Laid input spans k j) (hik : i ≤ k) : Laid input spans i j := by
  cases h with
  | nil h => exact .nil (Nat.le_trans hik h)
  | cons hka hab h => exact .cons (Nat.le_trans hik hka) hab h

theorem append (h : Laid input spans i k) (h' : Laid input spans' k j) :
    Laid input (spans ++ spans') i j := by
  induction h with
  | nil hik => exact h'.mono_left hik
  | cons hia hab _ ih => exact .cons hia hab (ih h')

end Laid

/-- The node covers the lexemes from one place to before another. -/
structure Node.Covers (input : Input) (n : Node) (i j : Nat) : Prop where
  lt : i < j
  le : j ≤ input.lexemes.body.size
  span : n.span = input.nodeSpan i j
  tokens : n.tokens ++ input.lexemes.tokensFrom j = input.lexemes.tokensFrom i
  children : Laid input (n.children.map Node.span) i j

/-- The node and all nodes below it cover lexemes. -/
def Node.Located (input : Input) (n : Node) : Prop :=
  n.All fun m => ∃ i j, m.Covers input i j

/-- The nodes cover lexemes one after the other, from one place to before another, where at least
one lexeme is to be taken if `takes` says so. -/
structure Stretch (input : Input) (takes : Bool) (ns : List Node) (i j : Nat) : Prop where
  laid : Laid input (ns.map Node.span) i j
  take : takes = true → i < j
  bound : i < j → j ≤ input.lexemes.body.size
  located : ∀ n ∈ ns, n.Located input

namespace Stretch

variable {input : Input} {takes takes' : Bool} {ns ms : List Node} {n : Node} {i k j : Nat}

theorem le (h : Stretch input takes ns i j) : i ≤ j :=
  h.laid.le

theorem mono (h : Stretch input takes ns i j) (htakes : takes' = true → takes = true) :
    Stretch input takes' ns i j :=
  { h with take := fun htakes' => h.take (htakes htakes') }

theorem nil (i : Nat) : Stretch input false [] i i where
  laid := .nil (Nat.le_refl i)
  take h := absurd h Bool.false_ne_true
  bound h := absurd h (Nat.lt_irrefl i)
  located _ h := absurd h not_mem_nil

theorem append (h : Stretch input takes ns i k) (h' : Stretch input takes' ms k j) :
    Stretch input (takes || takes') (ns ++ ms) i j where
  laid := by
    rw [map_append]
    exact h.laid.append h'.laid
  take htakes := by
    have hik := h.le
    have hkj := h'.le
    rcases Bool.or_eq_true_iff.mp htakes with htake | htake
    · exact Nat.lt_of_lt_of_le (h.take htake) hkj
    · exact Nat.lt_of_le_of_lt hik (h'.take htake)
  bound hij := by
    rcases Nat.lt_or_eq_of_le h'.le with hkj | rfl
    · exact h'.bound hkj
    · exact h.bound hij
  located := forall_mem_append.mpr ⟨h.located, h'.located⟩

theorem of_covers (h : n.Covers input i j) (hn : n.Located input) : Stretch input true [n] i j where
  laid := by
    rw [map_singleton, h.span]
    exact .cons (Nat.le_refl i) h.lt (.nil (Nat.le_refl j))
  take _ := h.lt
  bound _ := h.le
  located := by simpa using hn

/-- A lexeme that no node is made of. -/
theorem lexeme (hi : i < input.lexemes.body.size) : Stretch input true [] i (i + 1) where
  laid := .nil (Nat.le_succ i)
  take _ := Nat.lt_succ_self i
  bound _ := hi
  located _ h := absurd h not_mem_nil

/-- The node that is made of the parts covers the lexemes that they do. -/
theorem covers {kind : Kind} {ps : List Part}
    (h : Stretch input true (ps.flatMap nodes) i j)
    (htokens : Part.tokensAll ps ++ input.lexemes.tokensFrom j = input.lexemes.tokensFrom i) :
    (Node.mk kind NodeId.detached (input.nodeSpan i j) ps).Covers input i j ∧
      (Node.mk kind NodeId.detached (input.nodeSpan i j) ps).Located input := by
  have hcovers : (Node.mk kind NodeId.detached (input.nodeSpan i j) ps).Covers input i j :=
    { lt := h.take rfl
      le := h.bound (h.take rfl)
      span := rfl
      tokens := by rwa [Node.tokens]
      children := by
        rw [children_mk]
        exact h.laid }
  exact ⟨hcovers, all_mk ⟨i, j, hcovers⟩ h.located⟩

/-- A node that is made around another one. -/
theorem covers_around {kind : Kind} {ps : List Part} {start : Nat}
    (hcovers : n.Covers input start i) (hn : n.Located input)
    (h : Stretch input takes (ps.flatMap nodes) i j)
    (htokens : Part.tokensAll ps ++ input.lexemes.tokensFrom j = input.lexemes.tokensFrom i) :
    (Node.mk kind NodeId.detached (input.nodeSpan start j) (.child n :: ps)).Covers input start j ∧
      (Node.mk kind NodeId.detached (input.nodeSpan start j) (.child n :: ps)).Located input := by
  refine Stretch.covers (((of_covers hcovers hn).append h).mono fun _ => rfl) ?_
  rw [Part.tokensAll, Part.tokens, append_assoc, htokens, hcovers.tokens]

end Stretch

/-! ### Derived nodes -/

/-- Whether the nodes that are made so hold a lexeme of their own. -/
def Making.takes : Making → Bool
  | .whole _ items => items.any Item.takes
  | .around _ _ _ | .joined _ => true

theorem Grammar.makes_taking : Grammar.Makes Making.takes isLegible where
  rules r := by
    cases r with
    | binary level => rfl
    | _ => decide +kernel
  initializer := by decide +kernel

theorem Start.phrase_taking (start : Start) :
    start.phrase.makes Making.takes isLegible = true := by
  cases start <;> decide +kernel

/-- What a judgement says about the lexemes that its nodes cover. -/
def Judgement.Lays (input : Input) (i j : Nat) : Judgement → Prop
  | .node p n =>
    p.makes Making.takes isLegible = true → n.Covers input i j ∧ n.Located input
  | .suffix ss start head n | .suffixes ss _ start head n =>
    ∀ inner, Suffix.makesAll Making.takes isLegible inner ss = true →
      head.Covers input start i → head.Located input → n.Covers input start j ∧ n.Located input
  | .parts items ps =>
    makesAll Making.takes isLegible items = true →
      Stretch input (items.any Item.takes) (ps.flatMap nodes) i j
  | .item it ps =>
    it.makes Making.takes isLegible = true →
      Stretch input it.takes (ps.flatMap nodes) i j
  | .list p ns =>
    p.makes Making.takes isLegible = true → Stretch input (!ns.isEmpty) ns i j
  | .tail p rest =>
    p.makes Making.takes isLegible = true → Stretch input false (rest.map Prod.snd) i j

/-- An input as it comes from a source: what stands before its end are the lexemes that are left. -/
structure Input.Cut (input : Input) : Prop where
  lt_size : ∀ k, (input.lexeme k).isEnd = false → k < input.lexemes.body.size
  tokensFrom : ∀ k, (input.lexeme k).isEnd = false →
    input.lexemes.tokensFrom k = (input.lexeme k).token :: input.lexemes.tokensFrom (k + 1)

/-- **Derived nodes cover the lexemes from which they are derived**, and so do the nodes below. -/
theorem Derives.lays {input : Input} (hcut : input.Cut) {J : Judgement} {i j : Nat}
    (h : Derives input J i j) : J.Lays input i j := by
  have htokens : ∀ {J i j}, Derives input J i j →
      J.Yields Making.takes input.lexemes.tokensFrom i j :=
    fun h => h.yields Grammar.makes_taking hcut.tokensFrom
  have haccepted : ∀ {t : Terminal} {k : Nat}, (t != .endOfInput) = true →
      t.accepts (input.lexeme k) = true → k < input.lexemes.body.size :=
    fun ht haccepts => hcut.lt_size _ (Terminal.not_isEnd_of_accepts ht haccepts)
  induction h with
  | node hps ih =>
    intro hok
    simp only [Phrase.makes, Bool.and_eq_true] at hok
    exact ((ih hok.2).mono fun _ => hok.1).covers (htokens hps hok.2)
  | rule _ ih => exact fun _ => ih (Grammar.makes_taking.rules _)
  | initializer _ ih => exact fun _ => ih Grammar.makes_taking.initializer
  | first _ ih | yes _ ih => exact fun hok => ih (Bool.and_eq_true_iff.mp hok).1
  | second _ ih | no _ ih | alone _ ih => exact fun hok => ih (Bool.and_eq_true_iff.mp hok).2
  | suffixed _ _ _ ihhead ihsuffixes =>
    intro hok
    simp only [Phrase.makes, Bool.and_eq_true] at hok
    obtain ⟨hcovers, hlocated⟩ := ihhead hok.1
    exact ihsuffixes _ hok.2 hcovers hlocated
  | @joined _ _ n rest i _ j _ hn hrest ihn ihrest =>
    intro hok
    simp only [Phrase.makes, Bool.and_eq_true] at hok
    obtain ⟨hcovers, hlocated⟩ := ihn hok.2
    have hstretch := (Stretch.of_covers hcovers hlocated).append (ihrest hok.2)
    have hnodes : Stretch input true ([Parser.separatedPart n rest].flatMap nodes) i j := by
      simpa [nodes_separatedPart] using hstretch
    refine hnodes.covers ?_
    rw [Part.tokensAll, Part.tokensAll, append_nil, tokens_separatedPart,
      append_assoc, htokens hrest hok.2, hcovers.tokens]
  | suffix hps ih =>
    intro inner hok hcovers hlocated
    simp only [Suffix.makesAll, Bool.and_eq_true] at hok
    exact (ih hok.1.1.2).covers_around hcovers hlocated (htokens hps hok.1.1.2)
  | follow hps _ ihps ihn =>
    intro inner hok hcovers hlocated
    simp only [Suffix.makesAll, Bool.and_eq_true] at hok
    obtain ⟨hcovers', hlocated'⟩ := (ihps hok.1.1.2).covers_around hcovers hlocated
      (htokens hps hok.1.1.2)
    exact ihn _ hok.1.2 hcovers' hlocated'
  | @other suffix _ _ _ _ _ _ _ ih =>
    intro inner hok hcovers hlocated
    cases suffix
    simp only [Suffix.makesAll, Bool.and_eq_true] at hok
    exact ih inner hok.2 hcovers hlocated
  | stop => exact fun _ _ hcovers hlocated => ⟨hcovers, hlocated⟩
  | more _ _ ihmid ihn =>
    intro inner hok hcovers hlocated
    obtain ⟨hcovers', hlocated'⟩ := ihmid inner hok hcovers hlocated
    exact ihn inner hok hcovers' hlocated'
  | nil | absent | forbid | listNil | tailNil => exact fun _ => .nil _
  | cons _ _ ihps ihqs =>
    intro hok
    simp only [makesAll, Bool.and_eq_true] at hok
    rw [flatMap_append, any_cons]
    exact (ihps hok.1).append (ihqs hok.2)
  | token haccepts | presentToken haccepts => exact fun hok => .lexeme (haccepted hok haccepts)
  | child _ ih | present _ ih | single _ ih =>
    intro hok
    obtain ⟨hcovers, hlocated⟩ := ih hok
    exact .of_covers hcovers hlocated
  | optional _ ih =>
    intro hok
    obtain ⟨hcovers, hlocated⟩ := ih hok
    exact (Stretch.of_covers hcovers hlocated).mono fun _ => rfl
  | none hmode =>
    intro _
    refine (Stretch.nil _).mono ?_
    rcases hmode with rfl | rfl <;> exact fun h => h
  | list hleast _ ih =>
    intro hok
    rw [flatMap_singleton]
    refine (ih hok).mono fun htakes => ?_
    rw [beq_iff_eq.mp htakes] at hleast
    simpa [isEmpty_eq_false_iff] using length_pos_iff.mp hleast
  | separated _ _ ihn ihrest =>
    intro hok
    obtain ⟨hcovers, hlocated⟩ := ihn hok
    have hstretch := (Stretch.of_covers hcovers hlocated).append (ihrest hok)
    rw [flatMap_singleton, nodes_separatedPart]
    exact hstretch.mono fun _ => rfl
  | trailing _ _ hcomma ihn ihrest =>
    intro hok
    obtain ⟨hcovers, hlocated⟩ := ihn hok
    have hstretch := (Stretch.of_covers hcovers hlocated).append (ihrest hok)
    have hall := hstretch.append (.lexeme (haccepted (by decide) hcomma))
    rw [append_nil] at hall
    rw [flatMap_singleton]
    exact hall.mono fun _ => rfl
  | branch hword _ ih =>
    intro hok
    simp only [Item.makes, Bool.and_eq_true] at hok
    obtain ⟨hcovers, hlocated⟩ := ih hok.2
    exact (Stretch.lexeme (haccepted hok.1 hword)).append (.of_covers hcovers hlocated)
  | empty =>
    intro hok
    simp only [Item.makes, Bool.and_eq_true, List.isEmpty_iff] at hok
    rw [flatMap_singleton, hok.2]
    exact .nil _
  | itemsYes _ ih =>
    intro hok
    simp only [Item.makes, Bool.and_eq_true] at hok
    exact (ih hok.1).mono fun h => absurd h Bool.false_ne_true
  | itemsNo _ ih =>
    intro hok
    simp only [Item.makes, Bool.and_eq_true] at hok
    exact (ih hok.2).mono fun h => absurd h Bool.false_ne_true
  | listCons _ _ ihn ihns =>
    intro hok
    obtain ⟨hcovers, hlocated⟩ := ihn hok
    exact ((Stretch.of_covers hcovers hlocated).append (ihns hok)).mono fun _ => rfl
  | tailCons hcomma _ _ ihn ihrest =>
    intro hok
    obtain ⟨hcovers, hlocated⟩ := ihn hok
    have hlexeme := Stretch.lexeme (haccepted (by decide) hcomma)
    exact (hlexeme.append ((Stretch.of_covers hcovers hlocated).append (ihrest hok))).mono
      fun _ => rfl

theorem Lexemes.cut (text : String) (located : Bool) :
    (Input.mk (ofString text) located).Cut where
  lt_size k hk := by
    refine Nat.lt_of_not_le fun hle => ?_
    rw [Input.lexeme, get_of_size_le hle] at hk
    cases hk
  tokensFrom k hk := by
    rcases get_cases text k with ⟨-, -, htokens⟩ | ⟨hend, -⟩
    · exact htokens
    · rw [show ((ofString text).get k).isEnd = false from hk] at hend
      cases hend

theorem readTree_located_nodes {start : Start} {text : String} {located : Bool}
    {source : Option String} {root : Node}
    (h : readTree start ⟨Lexemes.ofString text, located⟩ source = .ok root) :
    ∀ c ∈ root.children, c.Located ⟨Lexemes.ofString text, located⟩ := by
  obtain ⟨ns, j, rfl, hns, -⟩ := readTree_sound h
  have hstretch := hns.lays (cut text located) start.phrase_taking
  simpa [nodes] using hstretch.located

/-! ### What follows the reading keeps spans -/

section Transfer

variable {input : Input} {n m : Node}

theorem Node.Covers.congr {i j : Nat} (h : n.Covers input i j) (hspan : m.span = n.span)
    (htokens : m.tokens = n.tokens)
    (hchildren : m.children.map Node.span = n.children.map Node.span) : m.Covers input i j where
  lt := h.lt
  le := h.le
  span := hspan.trans h.span
  tokens := htokens ▸ h.tokens
  children := hchildren ▸ h.children

/-- A node of which only the nodes right below have changed, and kept their spans. -/
theorem Node.Located.of_children (h : n.Located input) (hspan : m.span = n.span)
    (htokens : m.tokens = n.tokens)
    (hchildren : List.Forall₂ (fun c d => d.span = c.span ∧ d.Located input) n.children
      m.children) : m.Located input := by
  obtain ⟨i, j, hcovers⟩ := h n n.mem_preorder_self
  have hspans : m.children.map Node.span = n.children.map Node.span := by
    rw [← forall₂_eq_eq_eq, forall₂_map_left_iff, forall₂_map_right_iff]
    exact hchildren.flip.imp fun _ _ hcd => hcd.1
  intro k hk
  rcases mem_preorder_iff.mp hk with rfl | ⟨d, hd, hkd⟩
  · exact ⟨i, j, hcovers.congr hspan htokens hspans⟩
  · obtain ⟨c, -, -, hlocated⟩ := exists_counterpart hchildren hd
    exact hlocated k hkd

theorem Node.Located.child {c : Node} (h : n.Located input) (hc : c ∈ n.children) :
    c.Located input :=
  fun m hm => h m (mem_preorder_of_mem_child hc hm)

theorem Node.span_number (n : Node) (last : NodeId) : (n.number last).1.span = n.span := by
  cases n
  rfl

theorem Node.Located.number (h : n.Located input) (last : NodeId) :
    (n.number last).1.Located input := by
  induction n using induction generalizing last with
  | h n ih =>
    refine h.of_children (n.span_number last) (n.tokens_number last) (n.children_number ?_ last)
    exact fun c hc last => ⟨c.span_number last, ih c hc (h.child hc) last⟩

/-- The new callee of a call covers what the old one did. -/
theorem Node.Located.leaf_of_callee {callee : PlainCallee} {fresh : NodeId}
    (h : callee.node.Located input) :
    (Node.mk .identifier fresh callee.span [.token callee.token]).Located input := by
  obtain ⟨i, j, hcovers⟩ := h _ (mem_preorder_self _)
  intro m hm
  obtain rfl : m = .mk .identifier fresh callee.span [.token callee.token] := by
    rcases mem_preorder_iff.mp hm with rfl | ⟨c, hc, -⟩
    · rfl
    · simp [children_mk, nodes] at hc
  refine ⟨i, j, hcovers.lt, hcovers.le, hcovers.span, ?_, .nil (Nat.le_of_lt hcovers.lt)⟩
  rw [← hcovers.tokens]
  simp [PlainCallee.node, Node.tokens, Part.tokensAll, Part.tokens, Node.tokensAll]

theorem Node.Located.exchangeCallees (h : n.Located input) (callees : Registry NodeId NodeId) :
    (n.exchangeCallees callees).Located input := by
  induction n using induction with
  | h n ih =>
    refine h.of_children (n.span_exchangeCallees callees) (n.tokens_exchangeCallees callees) ?_
    have hkeeps : ∀ c ∈ n.children, (c.exchangeCallees callees).span = c.span ∧
        (c.exchangeCallees callees).Located input :=
      fun c hc => ⟨c.span_exchangeCallees callees, ih c hc (h.child hc)⟩
    rcases n.exchangeCallees_cases callees with
      hmap | ⟨id, span, callee, parts, fresh, rfl, -, hcall⟩
    · rw [hmap, children_mapChildren, forall₂_map_right_iff, forall₂_same]
      exact hkeeps
    · rw [children_mk, flatMap_cons, forall_mem_append] at hkeeps
      have hcallee := h.child (c := callee.node) (by simp [children_mk, nodes])
      rw [hcall, children_mk, children_mk, flatMap_cons, flatMap_cons,
        nodes_map_mapNodes]
      refine rel_append (.cons ⟨rfl, hcallee.leaf_of_callee⟩ .nil) ?_
      rw [forall₂_map_right_iff, forall₂_same]
      exact hkeeps.2

end Transfer

/-! ### Spans and the source -/

/-- The spans are known, are not empty, and stand one after the other between two offsets. -/
def Span.Divide (first last : Nat) : List (Option Span) → Prop
  | [] => first ≤ last
  | none :: _ => False
  | some s :: spans =>
    first ≤ s.start.offset ∧ s.start.offset < s.stop.offset ∧ Divide s.stop.offset last spans

theorem Span.divide_cons {first last : Nat} {start stop : Position} {spans : List (Option Span)} :
    Span.Divide first last (some ⟨start, stop⟩ :: spans) ↔
      first ≤ start.offset ∧ start.offset < stop.offset ∧ Span.Divide stop.offset last spans :=
  Iff.rfl

/-- The bytes of the part of a text that stands behind another part. -/
theorem extract_toUTF8_append (s t u : String) :
    (s ++ t ++ u).toUTF8.extract s.utf8ByteSize (s ++ t).utf8ByteSize = t.toUTF8 := by
  have hbefore : s.toByteArray.extract s.utf8ByteSize (s ++ t).utf8ByteSize = ByteArray.empty := by
    rw [ByteArray.extract_eq_empty_iff]
    exact Nat.min_le_right _ _
  have hbehind : (t.toByteArray ++ u.toByteArray).extract 0 t.utf8ByteSize = t.toByteArray :=
    ByteArray.extract_append_eq_left rfl
  rw [String.append_assoc, String.toUTF8, String.toByteArray_append, String.toByteArray_append,
    ByteArray.extract_append, hbefore]
  simp [hbehind, String.toUTF8]

section Exact

variable {text : String} {i j k : Nat}

/-- The lexemes from one place to before another are not empty. -/
theorem Lexemes.start_lt_stop_of_le (hik : i ≤ k) (hk : k < (ofString text).body.size) :
    ((ofString text).get i).start.offset < ((ofString text).get k).stop.offset := by
  rcases Nat.lt_or_eq_of_le hik with hlt | rfl
  · exact Nat.lt_trans (start_lt hlt (Nat.le_of_lt hk)) (start_lt_stop hk)
  · exact start_lt_stop hk

theorem Lexemes.stop_le_start_of_lt (hik : i < k) (hk : k ≤ (ofString text).body.size) :
    ((ofString text).get i).stop.offset ≤ ((ofString text).get k).start.offset := by
  rcases Nat.lt_or_eq_of_le (show i + 1 ≤ k from hik) with hlt | rfl
  · exact Nat.le_trans (stop_le_start text i) (Nat.le_of_lt (start_lt hlt hk))
  · exact stop_le_start text i

theorem Input.spanOf_succ (input : Input) (h : i ≤ k) :
    input.spanOf i (k + 1) = ⟨(input.lexeme i).start, (input.lexeme k).stop⟩ := by
  rw [spanOf, if_pos (Nat.lt_succ_of_le h), Nat.add_sub_cancel]

/-- Spans of lexemes that follow each other stand one after the other. -/
theorem Laid.divide {spans : List (Option Span)}
    (h : Laid ⟨Lexemes.ofString text, true⟩ spans i (k + 1))
    (hk : k < (Lexemes.ofString text).body.size) {first : Nat}
    (hstart : first ≤ ((Lexemes.ofString text).get i).start.offset)
    (hstop : first ≤ ((Lexemes.ofString text).get k).stop.offset) :
    Span.Divide first ((Lexemes.ofString text).get k).stop.offset spans := by
  generalize hj : k + 1 = j at h
  induction h generalizing first with
  | nil => exact hstop
  | @cons spans i a b j hia hab h ih =>
    subst hj
    have hbk := h.le
    obtain ⟨c, rfl⟩ := Nat.exists_eq_succ_of_ne_zero (Nat.ne_of_gt (Nat.lt_of_le_of_lt
      (Nat.zero_le a) hab))
    have hac : a ≤ c := Nat.le_of_lt_succ hab
    have hck : c ≤ k := Nat.le_of_succ_le_succ hbk
    have hspan : Input.nodeSpan ⟨Lexemes.ofString text, true⟩ a (c + 1) =
        some ⟨((Lexemes.ofString text).get a).start, ((Lexemes.ofString text).get c).stop⟩ :=
      congrArg some (Input.spanOf_succ _ hac)
    rw [Nat.succ_eq_add_one, hspan, Span.divide_cons]
    refine ⟨?_, start_lt_stop_of_le hac (Nat.lt_of_le_of_lt hck hk), ?_⟩
    · rcases Nat.lt_or_eq_of_le hia with hlt | rfl
      · have hle : a ≤ (Lexemes.ofString text).body.size := by omega
        exact Nat.le_trans hstart (Nat.le_of_lt (start_lt hlt hle))
      · exact hstart
    · refine ih ?_ ?_ rfl
      · exact stop_le_start text c
      · rcases Nat.lt_or_eq_of_le hck with hlt | rfl
        · exact Nat.le_trans (stop_le_start_of_lt hlt (Nat.le_of_lt hk))
            (Nat.le_of_lt (start_lt_stop hk))
        · exact Nat.le_refl _

theorem Lexemes.tokensFrom_eq (text : String) (i k : Nat) (hik : i ≤ k)
    (hk : k < (ofString text).body.size) :
    ∃ ts, (ofString text).tokensFrom i =
      ts ++ ((ofString text).get k).token :: (ofString text).tokensFrom (k + 1) := by
  have hnext : (ofString text).tokensFrom k =
      ((ofString text).get k).token :: (ofString text).tokensFrom (k + 1) := by
    rcases get_cases text k with ⟨-, -, h⟩ | ⟨hend, -⟩
    · exact h
    · exact absurd (size_le_of_isEnd hend) (Nat.not_le_of_gt hk)
  refine ⟨(((ofString text).body.toList.drop i).take (k - i)).map Lexeme.token, ?_⟩
  rw [← hnext, tokensFrom, tokensFrom, ← map_append]
  have hdrop : (ofString text).body.toList.drop k =
      ((ofString text).body.toList.drop i).drop (k - i) := by
    rw [drop_drop, Nat.add_sub_cancel' hik]
  rw [hdrop, take_append_drop]

/-- The text of a node comes behind the text before the lexemes that it covers. -/
theorem Node.Covers.before_append_source {n : Node} {located : Bool}
    (h : n.Covers ⟨Lexemes.ofString text, located⟩ i j) :
    (Lexemes.ofString text).before i ++ n.source = (Lexemes.ofString text).before j := by
  have htiles := ofString_tiles text
  have hrest : ∀ k, (Lexemes.ofString text).rest k =
      String.join (((Lexemes.ofString text).tokensFrom k).map Token.source) := by
    intro k
    rw [Lexemes.rest, Lexemes.tokensFrom, map_map]
    rfl
  have hsource : n.source ++ (Lexemes.ofString text).rest j = (Lexemes.ofString text).rest i := by
    rw [hrest, hrest, n.source_eq_join, ← String.join_append, ← map_append, h.tokens]
  have hwhole := (htiles.before_append_rest i).trans (htiles.before_append_rest j).symm
  rw [← hsource, ← String.append_assoc] at hwhole
  exact (String.append_left_inj _).mp hwhole

/-- What a node says about where it stands in a text: its span holds its text without the trivia
behind its last token, the spans of the nodes right below it divide it, and both ends are told by
the text before them. -/
structure Node.SpanExact (text : String) (n : Node) (s : Span) (t : Token) : Prop where
  span : n.span = some s
  last : n.tokens.getLast? = some t
  bytes : text.toUTF8.extract s.start.offset s.stop.offset ++ t.trivia.toUTF8 = n.source.toUTF8
  children : Span.Divide s.start.offset s.stop.offset (n.children.map Node.span)
  start : s.start.IsIn text
  stop : s.stop.IsIn text

/-- **The span of a node that covers lexemes cuts its text out of the source.** -/
theorem Node.Covers.exact {n : Node} (h : n.Covers ⟨Lexemes.ofString text, true⟩ i j) :
    ∃ s t, n.SpanExact text s t := by
  have htiles := ofString_tiles text
  obtain ⟨k, rfl⟩ : ∃ k, j = k + 1 := ⟨j - 1, by have := h.lt; omega⟩
  have hik : i ≤ k := Nat.le_of_lt_succ h.lt
  have hk : k < (Lexemes.ofString text).body.size := h.le
  -- the tokens of the node end with that of the last lexeme, and so does its text
  obtain ⟨ts, hts⟩ := tokensFrom_eq text i k hik hk
  have htokens : n.tokens = ts ++ [((Lexemes.ofString text).get k).token] := by
    refine append_cancel_right (h.tokens.trans (hts.trans ?_))
    rw [append_assoc, singleton_append]
  have hsource : n.source = String.join (ts.map Token.source) ++
      ((Lexemes.ofString text).get k).text ++ ((Lexemes.ofString text).get k).trivia := by
    rw [n.source_eq_join, htokens, map_append, String.join_append, String.append_assoc]
    simp [Token.source, Lexeme.token]
  have hbefore : (Lexemes.ofString text).before i ++ String.join (ts.map Token.source) =
      (Lexemes.ofString text).before k := by
    have hsucc := h.before_append_source.trans (htiles.before_succ k)
    rw [hsource, String.append_assoc, ← String.append_assoc] at hsucc
    exact (String.append_left_inj _).mp hsucc
  have hspan : n.span = some ⟨((Lexemes.ofString text).get i).start,
      ((Lexemes.ofString text).get k).stop⟩ :=
    h.span.trans (congrArg some (Input.spanOf_succ _ hik))
  -- the source up to the end of the last lexeme, and what follows
  have hwhole : text = ((Lexemes.ofString text).before k ++ ((Lexemes.ofString text).get k).text) ++
      (((Lexemes.ofString text).get k).trivia ++ (Lexemes.ofString text).rest (k + 1)) := by
    refine (htiles.before_append_rest (k + 1)).symm.trans ?_
    rw [htiles.before_succ, Token.source]
    simp only [String.append_assoc]
    rfl
  refine ⟨_, _, hspan, by rw [htokens, getLast?_concat], ?_, ?_, ?_, ?_⟩
  · have hbytes := extract_toUTF8_append ((Lexemes.ofString text).before i)
      (String.join (ts.map Token.source) ++ ((Lexemes.ofString text).get k).text)
      (((Lexemes.ofString text).get k).trivia ++ (Lexemes.ofString text).rest (k + 1))
    have hstop : (Lexemes.ofString text).before i ++
        (String.join (ts.map Token.source) ++ ((Lexemes.ofString text).get k).text) =
          (Lexemes.ofString text).before k ++ ((Lexemes.ofString text).get k).text := by
      rw [← String.append_assoc, hbefore]
    rw [hstop, ← hwhole, String.utf8ByteSize_append, ← offset_start,
      ← offset_stop] at hbytes
    rw [hbytes, hsource]
    exact String.toByteArray_append.symm
  · exact h.children.divide hk (Nat.le_refl _)
      (Nat.le_of_lt (start_lt_stop_of_le hik hk))
  · have hstart := Position.advance_isIn ((Lexemes.ofString text).before i)
      ((Lexemes.ofString text).rest i)
    rw [← start_get, htiles.before_append_rest] at hstart
    exact hstart
  · have hstop := Position.advance_isIn
      ((Lexemes.ofString text).before k ++ ((Lexemes.ofString text).get k).text)
      (((Lexemes.ofString text).get k).trivia ++ (Lexemes.ofString text).rest (k + 1))
    rw [← stop_get, ← hwhole] at hstop
    exact hstop

end Exact

/-- **Spans are exact.** Each node of a program other than the program itself has a span, and the
bytes of the source in it, with the trivia behind the last token of the node, are its text. The
nodes right below it stand in its span, in order and without overlap. The line and the column of
both ends count the line feeds before them and the characters since the last one. -/
theorem Program.spans_exact {text : String} {options : Options} {p : Program}
    (h : Program.parse text options = .ok p) (hlocated : options.located = true) {n : Node}
    (hn : n ∈ p.root.preorder) (hkind : n.kind ≠ .program) : ∃ s t, n.SpanExact text s t := by
  obtain ⟨tree, b, htree, -, rfl⟩ := Program.parse_eq_ok h
  rw [Program.readText, hlocated] at htree
  have hchildren : ∀ c ∈ (tree.number 0).1.children,
      c.Located ⟨Lexemes.ofString text, true⟩ := by
    intro c hc
    have hnumber := tree.children_number (fun d hd last =>
      (readTree_located_nodes htree d hd).number last) 0
    obtain ⟨d, -, hd⟩ := exists_counterpart hnumber hc
    exact hd
  have hroot : (tree.number 0).1.kind = .program := by
    obtain ⟨ns, j, rfl, -⟩ := readTree_sound htree
    rfl
  have hexchange : (tree.number 0).1.exchangeCallees b.callees =
      (tree.number 0).1.mapChildren (Node.exchangeCallees b.callees) :=
    exchangeCallees_of_kind _ (by rw [hroot]; decide)
  simp only [hexchange] at hn
  rcases mem_preorder_iff.mp hn with rfl | ⟨c, hc, hn⟩
  · rw [kind_mapChildren, hroot] at hkind
    exact absurd rfl hkind
  · rw [children_mapChildren, mem_map] at hc
    obtain ⟨d, hd, rfl⟩ := hc
    obtain ⟨i, j, hcovers⟩ := (hchildren d hd).exchangeCallees b.callees n hn
    exact hcovers.exact

/-- A call on a line behind one with a character of two bytes. Its callee has been exchanged, and
the trivia behind its last token is left out of its span. -/
theorem Program.spans_exact_call :
    ∃ p n, Program.parse "void f() \x7b\x7d\n// é\nvoid g() \x7b\n  f() /* é */;\n\x7d"
        { Options.default with located := true } = .ok p ∧
      n ∈ p.root.preorder ∧ n.kind = .functionCall ∧
      n.children.map Node.kind = [.identifier] ∧ n.source = "f() /* é */" ∧
      n.SpanExact "void f() \x7b\x7d\n// é\nvoid g() \x7b\n  f() /* é */;\n\x7d"
        ⟨⟨31, 4, 3⟩, ⟨34, 4, 6⟩⟩ ⟨")", " /* é */"⟩ := by
  have heval : (Program.parse "void f() \x7b\x7d\n// é\nvoid g() \x7b\n  f() /* é */;\n\x7d"
      { Options.default with located := true }).toOption.bind (fun p =>
        (p.root.preorder.find? fun n => n.kind = .functionCall).map fun n =>
          (n.children.map Node.kind, n.source, n.span, n.tokens.getLast?)) =
      some ([.identifier], "f() /* é */", some ⟨⟨31, 4, 3⟩, ⟨34, 4, 6⟩⟩,
        some ⟨")", " /* é */"⟩) := by
    decide +kernel
  obtain ⟨p, hp, heval⟩ := Option.bind_eq_some_iff.mp heval
  obtain ⟨n, hfind, heval⟩ := Option.map_eq_some_iff.mp heval
  simp only [Prod.mk.injEq] at heval
  obtain ⟨hchildren, hsource, hspan, hlast⟩ := heval
  have hparse := eq_ok_of_toOption hp
  have hn : n ∈ p.root.preorder := mem_of_find?_eq_some hfind
  have hkind : n.kind = .functionCall := by simpa using find?_some hfind
  obtain ⟨s, t, hexact⟩ := Program.spans_exact hparse rfl hn (by rw [hkind]; decide)
  obtain rfl : s = ⟨⟨31, 4, 3⟩, ⟨34, 4, 6⟩⟩ := Option.some.inj (hexact.span.symm.trans hspan)
  obtain rfl : t = ⟨")", " /* é */"⟩ := Option.some.inj (hexact.last.symm.trans hlast)
  exact ⟨p, n, hparse, hn, hkind, hchildren, hsource, hexact⟩

end ShaderSource
