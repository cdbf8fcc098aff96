import ShaderSource.Proofs.Outline
import ShaderSource.Proofs.Reparsing

/-!
# Formatting does not matter

Two sources with lexemes of the same kinds and texts differ in what stands between the lexemes only:
in blanks and comments. They are read as trees that differ only there, with the same identities,
or both fail with the same error up to its place. Binding looks at names and kinds of nodes. The
one text that it looks at beyond that is the text of array dimensions in prototypes, which becomes
part of signatures; so all that is registered is the same, the functions with their signatures
excepted.

## Main results

* `Node.Alike.occurrences`: trees that differ in formatting have the same occurrences, up to
  signatures.
* `Program.readText_alike`: sources that differ in formatting are read as such trees.
* `Program.parse_formatting`: the programs are the same up to formatting and signatures.
-/

namespace ShaderSource

open List Node Occurrence

/-! ### Occurrences -/

/-- The nodes are the same up to spans and what the function drops of tokens. -/
def Node.Alike (f : Token → Token) (n m : Node) : Prop :=
  n.retoken f = m.retoken f

theorem Node.name?_retoken {f : Token → Token} (hf : ∀ t, (f t).text = t.text) (n : Node) :
    (n.retoken f).name? = n.name? := by
  have hleaf : ∀ m : Node, m.leaf?.map Token.text = (m.retoken f).leaf?.map Token.text := by
    intro m
    obtain ⟨k, i, s, ps⟩ := m
    rw [retoken_mk]
    rcases ps with _ | ⟨p, _ | ⟨q, ps⟩⟩
    · rfl
    · cases p <;> simp [leaf?, hf]
    · simp [leaf?]
  rw [Node.name?, Node.name?, kind_retoken, ← hleaf n]

section Alike

variable {f : Token → Token} {n m : Node} {role : Role}

namespace Node.Alike

theorem kind (h : n.Alike f m) : n.kind = m.kind := by
  simpa using congrArg Node.kind h

theorem id (h : n.Alike f m) : n.id = m.id := by
  simpa using congrArg Node.id h

theorem along (h : n.Alike f m) (path : List Nat) :
    List.Forall₂ (Node.Alike f) (n.along path) (m.along path) := by
  have halong := congrArg (Node.along path) h
  rw [along_retoken, along_retoken] at halong
  exact forall₂_of_map_eq halong

theorem field (h : n.Alike f m) (i : Nat) :
    List.Forall₂ (Node.Alike f) (n.field i) (m.field i) := by
  have hfield := congrArg (Node.field i) h
  rw [field_retoken, field_retoken] at hfield
  exact forall₂_of_map_eq hfield

theorem plan (h : n.Alike f m) (role : Role) : n.plan role = m.plan role := by
  have hcall : n.isPlainCall = m.isPlainCall := by
    rw [← isPlainCall_retoken f, h, isPlainCall_retoken]
  have hblock : n.isOpenBlock = m.isOpenBlock := by
    rw [← isOpenBlock_retoken f, h, isOpenBlock_retoken]
  rw [Node.plan, Node.plan, hcall, hblock, h.kind]

theorem site (h : n.Alike f m) : n.site.outline = m.site.outline :=
  congrArg (fun id => Site.mk id none) h.id

end Node.Alike

theorem map_alike {α : Type} {ns ms : List Node} {g g' : Node → α}
    (h : List.Forall₂ (Node.Alike f) ns ms) (hg : ∀ k k', k.Alike f k' → g k = g' k') :
    ns.map g = ms.map g' := by
  induction h with
  | nil => rfl
  | @cons n m ns ms hnm _ ih => rw [map_cons, map_cons, hg n m hnm, ih]

theorem flatMap_forall₂ {α β γ : Type} {R : α → β → Prop} {f : α → List γ} {g : β → List γ}
    {as : List α} {bs : List β} (h : List.Forall₂ R as bs)
    (hfg : ∀ a ∈ as, ∀ b ∈ bs, R a b → f a = g b) : as.flatMap f = bs.flatMap g := by
  induction h with
  | nil => rfl
  | @cons a b as bs hab _ ih =>
    rw [flatMap_cons, flatMap_cons,
      hfg a mem_cons_self b mem_cons_self hab,
      ih fun a ha b hb => hfg a (mem_cons_of_mem _ ha) b (mem_cons_of_mem _ hb)]

/-- A function is named by a prototype. -/
theorem Node.AllFit.kind_prototype (hfit : n.AllFit) {path : List Nat}
    (hmove : .function path ∈ n.plan role) (hm : m ∈ n.along path) :
    m.kind = .functionPrototype := by
  rcases plan_function hmove with ⟨hkind, rfl⟩ | ⟨hkind, rfl⟩
  · have hfield : m ∈ n.field 0 := by simpa [Node.along] using hm
    exact (hfit.of_field hfield (by rw [hkind]; rfl)).2
  · rwa [mem_singleton.mp hm]

variable (hf : ∀ t, (f t).text = t.text)

include hf

theorem Node.Alike.text (h : n.Alike f m) : n.text = m.text := by
  rw [← text_retoken hf n, h, text_retoken hf]

theorem Node.Alike.name? (h : n.Alike f m) : n.name? = m.name? := by
  rw [← name?_retoken hf n, h, name?_retoken hf]

/-- Nodes that are alike are counted alike as arguments. -/
theorem argumentCount_alike {ns ms : List Node} (h : List.Forall₂ (Node.Alike f) ns ms) :
    argumentCount ns = argumentCount ms := by
  cases h with
  | nil => rfl
  | @cons n m ns ms hnm h =>
    cases h with
    | nil => rw [argumentCount, argumentCount, hnm.name? hf]
    | cons _ h =>
      rw [argumentCount, argumentCount, length_cons, length_cons, length_cons,
        length_cons, h.length_eq] <;> simp

theorem Node.prototypeName_alike (h : n.Alike f m) : n.prototypeName = m.prototypeName := by
  rw [prototypeName, prototypeName, map_alike (h.along [0, 1]) fun _ _ h => h.text hf]

/-- What a move makes of nodes that are alike. -/
theorem Node.Alike.perform {signed : Bool} (h : n.Alike f m) {move : Move}
    (hmove : move ∈ n.plan role)
    (hsignature : ∀ path, move = .function path → ∀ k ∈ n.along path, ∀ k' ∈ m.along path,
      k.Alike f k' →
        k.prototypeSignature.outline signed = k'.prototypeSignature.outline signed)
    (hbelow : ∀ c ∈ n.children, ∀ k ∈ c.preorder, ∀ k' ∈ m.preorder, ∀ role', k.Alike f k' →
      (k.occurrences role').map (outline signed) =
        (k'.occurrences role').map (outline signed)) :
    (n.perform move).map (outline signed) =
      (m.perform move).map (outline signed) := by
  cases move with
  | visit path role' =>
    rw [Node.perform, Node.perform, map_flatMap, map_flatMap]
    refine flatMap_forall₂ (h.along path) fun k hk k' hk' halike => ?_
    obtain ⟨c, hc, hkc⟩ := below_of_visit hmove hk
    exact hbelow c hc k hkc k' (mem_along hk') role' halike
  | declare c path =>
    rw [Node.perform, Node.perform, map_map, map_map]
    refine map_alike (h.along path) fun k k' halike => ?_
    cases c <;> simp [NameClass.declares, outline, halike.text hf, halike.site]
  | use c =>
    cases c <;> simp [Node.perform, NameClass.uses, outline, h.text hf, h.site]
  | call =>
    rw [Node.perform, Node.perform, map_flatMap, map_flatMap]
    refine flatMap_forall₂ (h.field 0) fun callee _ callee' _ hcallee => ?_
    rw [map_map, map_map]
    refine map_alike (hcallee.field 0) fun name name' hname => ?_
    have hid : n.site.id = m.site.id := h.id
    simp [outline, Site.outline, hname.text hf, hname.id, hid,
      argumentCount_alike hf (h.field 2)]
  | function path =>
    rw [Node.perform, Node.perform, map_flatMap, map_flatMap]
    refine flatMap_forall₂ (h.along path) fun k hk k' hk' halike => ?_
    have hname := prototypeName_alike hf halike
    have hsignature := hsignature path rfl k hk k' hk' halike
    simp only [functionOccurrence, h.kind, hname]
    split <;> simp [outline, hsignature, h.site]
  | enter name => rfl
  | leave => rfl

/-- **The occurrences of trees that are alike** are the same, up to signatures. -/
theorem Node.Alike.occurrences (h : n.Alike f m) (hfit : n.AllFit) (hfit' : m.AllFit)
    {signed : Bool}
    (hsignature : ∀ k k' : Node, k.Alike f k' → k.AllFit → k'.AllFit →
      k.kind = .functionPrototype →
        k.prototypeSignature.outline signed = k'.prototypeSignature.outline signed)
    (role : Role) :
    (n.occurrences role).map (outline signed) =
      (m.occurrences role).map (outline signed) := by
  induction n using strongInduction generalizing m role with
  | h n ih =>
    rw [hfit.occurrences_eq, hfit'.occurrences_eq, ← h.plan, map_flatMap, map_flatMap]
    refine flatMap_congr fun move hmove => h.perform hf hmove ?_ ?_
    · rintro path rfl k hk k' hk' halike
      exact hsignature k k' halike (hfit.below (mem_along hk))
        (hfit'.below (mem_along hk')) (hfit.kind_prototype hmove hk)
    · intro c hc k hk k' hk' role' halike
      exact ih c hc k hk halike (hfit.below (mem_preorder_of_mem_child hc hk))
        (hfit'.below hk') role'

end Alike

/-! ### Trees -/

/-- The tree without the text in front of its first token. -/
def Node.untitled : Node → Node
  | .mk kind id span (.text _ :: parts) => .mk kind id span (.text "" :: parts)
  | n => n

/-- A tree without spans and trivia, be it behind tokens or in front of the first one. -/
def Node.plain (n : Node) : Node :=
  (n.retoken Token.plain).untitled

theorem Node.untitled_cases (n : Node) :
    (∃ k i s t ps, n = .mk k i s (.text t :: ps) ∧ n.untitled = .mk k i s (.text "" :: ps)) ∨
      n.untitled = n ∧ ∀ k i s t ps, n ≠ .mk k i s (.text t :: ps) := by
  obtain ⟨k, i, s, _ | ⟨p, ps⟩⟩ := n
  · exact .inr ⟨rfl, by simp⟩
  · cases p with
    | text t => exact .inl ⟨k, i, s, t, ps, rfl, rfl⟩
    | _ => exact .inr ⟨rfl, by simp⟩

theorem Node.children_plain (n : Node) :
    n.plain.children = n.children.map (retoken Token.plain) := by
  have huntitled : ∀ m : Node, m.untitled.children = m.children := by
    intro m
    rcases m.untitled_cases with ⟨k, i, s, t, ps, rfl, heq⟩ | ⟨heq, -⟩ <;> rw [heq]
    rfl
  obtain ⟨k, i, s, ps⟩ := n
  rw [plain, huntitled, retoken_mk, children_mk, children_mk,
    flatMap_map, map_flatMap]
  exact flatMap_congr fun p _ => p.nodes_retoken Token.plain

/-- Numbering does not look at trivia. -/
theorem Node.number_plain (n : Node) (last : NodeId) :
    n.plain.number last = ((n.number last).1.plain, (n.number last).2) := by
  have huntitled : ∀ m : Node,
      m.untitled.number last = ((m.number last).1.untitled, (m.number last).2) := by
    intro m
    rcases m.untitled_cases with ⟨k, i, s, t, ps, rfl, heq⟩ | ⟨heq, hnot⟩
    · rw [heq]
      rfl
    · obtain ⟨k, i, s, _ | ⟨p, ps⟩⟩ := m
      · rfl
      · cases p with
        | text t => exact absurd rfl (hnot k i s t ps)
        | optChild c | branch _ c => cases c <;> rfl
        | _ => rfl
  rw [plain, huntitled, number_retoken]
  rfl

/-- Nor does exchanging callees. -/
theorem Node.AllFit.plain_exchangeCallees {n : Node} (h : n.AllFit)
    (callees : Registry NodeId NodeId) :
    (n.exchangeCallees callees).plain = n.plain.exchangeCallees callees := by
  have huntitled : ∀ m : Node,
      (m.exchangeCallees callees).untitled = m.untitled.exchangeCallees callees := by
    intro m
    rcases m.untitled_cases with ⟨k, i, s, t, ps, rfl, heq⟩ | ⟨heq, hnot⟩
    · have hmap : ∀ u, (Node.mk k i s (.text u :: ps)).exchangeCallees callees =
          .mk k i s (.text u :: ps.map (Part.mapNodes (exchangeCallees callees))) :=
        fun u => exchangeCallees_of_not fun hplain => by
          simp [isPlainCall, Part.nodes] at hplain
      rw [heq, hmap, hmap]
      rfl
    · rw [heq]
      rcases m.exchangeCallees_cases callees with hmap | ⟨_, _, _, _, _, rfl, _, hmap⟩
      · obtain ⟨k, i, s, _ | ⟨p, ps⟩⟩ := m
        · rw [hmap]
          rfl
        · rw [hmap]
          cases p with
          | text t => exact absurd rfl (hnot k i s t ps)
          | optChild c | branch _ c => cases c <;> rfl
          | _ => rfl
      · rw [hmap]
        rfl
  rw [plain, plain, h.retoken_exchangeCallees, huntitled]

/-! ### Sources with the same words -/

/-- What the grammar looks at in a source, lexeme by lexeme. -/
def Lexemes.words (text : String) : List (LexemeKind × String) :=
  (ofString text).body.toList.map Lexeme.word

theorem Lexemes.word_get (text : String) (i : Nat) :
    ((ofString text).get i).word = ((words text)[i]?).getD (.endOfInput, "") := by
  rw [words, getElem?_map, Array.getElem?_toList]
  rcases Nat.lt_or_ge i (ofString text).body.size with hi | hi
  · rw [Array.getElem?_eq_getElem hi]
    simp [get, hi]
  · rw [Array.getElem?_eq_none hi, get_of_size_le hi]
    rfl

theorem Lexemes.word_get_eq {text text' : String} (h : words text = words text') (i : Nat) :
    ((ofString text).get i).word = ((ofString text').get i).word := by
  rw [word_get, word_get, h]

/-- Two outcomes are of the same kind: results that are related, or errors that are the same up to
their places. -/
inductive SameOutcome {α : Type} (R : α → α → Prop) : Except Error α → Except Error α → Prop
  | ok {a b} (h : R a b) : SameOutcome R (.ok a) (.ok b)
  | error {e e'} (h : e.unplaced = e'.unplaced) : SameOutcome R (.error e) (.error e')

theorem SameOutcome.of_ok {α : Type} {R : α → α → Prop} {a : α} {o o' : Except Error α}
    (h : SameOutcome R o o') (ho : o = .ok a) : ∃ b, o' = .ok b ∧ R a b := by
  subst ho
  cases h with
  | ok h => exact ⟨_, rfl, h⟩

/-- The furthest failure leads to the same error but for its place if the lexemes there have the
same word. -/
theorem Failure.unplaced_error {f : Failure} {input input' : Input}
    (h : (input.lexeme f.place).word = (input'.lexeme f.place).word) (source : Option String) :
    (f.error input source).unplaced = (f.error input' source).unplaced := by
  have hfound := Lexeme.found_eq_of_word h
  unfold Failure.error Error.unplaced
  dsimp only
  rw [hfound]

/-- **Sources with the same words are read alike.** -/
theorem Program.readText_alike {text text' : String}
    (h : Lexemes.words text = Lexemes.words text') (options : Options) :
    SameOutcome (fun tree tree' => tree.plain = tree'.plain)
      (Program.readText text options) (Program.readText text' options) := by
  obtain ⟨located, strict, quiet, source, start⟩ := options
  have hview : Start.Views (Lexemes.ofString text).leading (Lexemes.ofString text').leading
      Token.plain plain := by
    intro ns ms span span' hns
    simp only [plain, retoken_mk, map_cons, map_nil, Part.retoken_text,
      Part.retoken_list, hns, untitled]
  have hfollows : (Alignment.ofSources text text' located).Follows plain
      (start.outcome ⟨Lexemes.ofString text, located⟩)
      (start.outcome ⟨Lexemes.ofString text', located⟩) :=
    start.outcome_follows (Alignment.ofSources text text' located) hview
      (.of_agrees (Lexemes.word_get_eq h) _ _)
  rw [Program.readText, Program.readText, readTree_eq, readTree_eq]
  generalize start.outcome ⟨Lexemes.ofString text, located⟩ = o at hfollows ⊢
  generalize start.outcome ⟨Lexemes.ofString text', located⟩ = o' at hfollows ⊢
  cases hfollows with
  | error he => exact .error he
  | @failed t t' hm =>
    have hfailure : t.failure = t'.failure := hm.failure
    have hword : (Input.lexeme ⟨Lexemes.ofString text, located⟩ t'.failure.place).word =
        (Input.lexeme ⟨Lexemes.ofString text', located⟩ t'.failure.place).word :=
      Lexemes.word_get_eq h _
    change SameOutcome _ (.error (t.failure.error ⟨Lexemes.ofString text, located⟩ source))
      (.error (t'.failure.error ⟨Lexemes.ofString text', located⟩ source))
    rw [hfailure]
    exact .error (Failure.unplaced_error hword source)
  | matched hplain _ => exact .ok hplain

/-! ### Programs -/

/-- The programs are the same up to formatting: the trees up to trivia and spans, the scopes up to
their spans and the signatures of functions, and so are the reports about variables and types. -/
structure Program.Alike (p p' : Program) : Prop where
  root : p.root.plain = p'.root.plain
  scopes : p.scopes.outline false = p'.scopes.outline false
  diagnostics : Diagnostic.outlines false p.diagnostics = Diagnostic.outlines false p'.diagnostics

/-- The occurrences of whole trees that are the same up to trivia. -/
theorem Node.occurrences_of_plain {n m : Node} (h : n.plain = m.plain) (hfit : n.AllFit)
    (hfit' : m.AllFit) (hkind : n.kind = .program) (hkind' : m.kind = .program) :
    (n.occurrences .plain).map (outline false) =
      (m.occurrences .plain).map (outline false) := by
  have hchildren := congrArg children h
  rw [children_plain, children_plain] at hchildren
  rw [hfit.occurrences_program hkind, hfit'.occurrences_program hkind', map_flatMap,
    map_flatMap]
  exact flatMap_forall₂ (forall₂_of_map_eq hchildren) fun c hc c' hc' halike =>
    Alike.occurrences (f := Token.plain) (fun _ => rfl) halike (hfit.child hc) (hfit'.child hc')
      (fun _ _ _ _ _ _ => rfl) .plain

/-- What is bound in trees whose occurrences have the same outlines. -/
theorem Binding.ofTree_outline {signed : Bool} {policy : Policy} {root root' : Node}
    {last : NodeId} {b b' : Binding} (h : ofTree policy root last = (.ok (), b))
    (h' : ofTree policy root' last = (.ok (), b'))
    (hos : (root.occurrences .plain).map (outline signed) =
      (root'.occurrences .plain).map (outline signed)) :
    b.names.outline signed = b'.names.outline signed ∧
      Diagnostic.outlines signed b.diagnostics = Diagnostic.outlines signed b'.diagnostics := by
  obtain ⟨hnames, hreported, -⟩ := BindM.steps_leads h
  obtain ⟨hnames', hreported', -⟩ := BindM.steps_leads h'
  rw [hnames, hnames', hreported, hreported']
  exact Names.outline_run rfl hos

/-- **Formatting does not matter**: two sources with lexemes of the same kinds and texts are read
with the same kind of outcome where diagnostics are no errors. Programs are the same up to
formatting and signatures, and errors up to their places. -/
theorem Program.parse_formatting {text text' : String}
    (hwords : Lexemes.words text = Lexemes.words text') {options : Options}
    (hstrict : options.strict = false) :
    SameOutcome Program.Alike (Program.parse text options) (Program.parse text' options) := by
  have htrees := Program.readText_alike hwords options
  generalize htree : Program.readText text options = o at htrees
  generalize htree' : Program.readText text' options = o' at htrees
  cases htrees with
  | error he =>
    rw [Program.parse_of_readTree_error htree, Program.parse_of_readTree_error htree']
    exact .error he
  | @ok tree tree' hplain =>
    obtain ⟨b, hbind, hparse⟩ := Program.parse_of_readTree hstrict htree
    obtain ⟨b', hbind', hparse'⟩ := Program.parse_of_readTree hstrict htree'
    have hbound := Program.boundAs_of_ofTree htree hbind
    have hbound' := Program.boundAs_of_ofTree htree' hbind'
    have hnumber := number_plain tree 0
    rw [hplain, number_plain, Prod.mk.injEq] at hnumber
    obtain ⟨hroot, hlast⟩ := hnumber
    rw [hlast] at hbind'
    obtain ⟨hnames, hdiagnostics⟩ := Binding.ofTree_outline hbind hbind'
      (occurrences_of_plain hroot.symm hbound.fit hbound'.fit hbound.kind hbound'.kind)
    rw [hparse, hparse']
    refine .ok ⟨?_, congrArg Names.scopes hnames, hdiagnostics⟩
    have hcallees : b.callees = b'.callees := congrArg Names.callees hnames
    change ((tree.number 0).1.exchangeCallees b.callees).plain =
      ((tree'.number 0).1.exchangeCallees b'.callees).plain
    rw [hbound.fit.plain_exchangeCallees, hbound'.fit.plain_exchangeCallees, hroot, hcallees]

/-- Where the dimension of a parameter is spaced out, and a comment stands in front of all. The
undeclared variable is reported in both programs. -/
theorem Program.parse_formatting_spaced :
    ∃ p p',
      Program.parse "void f(int a[1+2]); int b=c;" Options.default = .ok p ∧
      Program.parse "/* */ void f(int a[1 + 2]);\nint b = c;" Options.default = .ok p' ∧
      (Diagnostic.outlines false p.diagnostics).map (fun d => (d.kind, d.node)) =
        [(.undeclaredVariable, 24)] ∧
      p.Alike p' := by
  have hwords : Lexemes.words "void f(int a[1+2]); int b=c;" =
      Lexemes.words "/* */ void f(int a[1 + 2]);\nint b = c;" := by decide +kernel
  have hstrict : Options.default.strict = false := rfl
  have hsame := Program.parse_formatting hwords hstrict
  refine Program.exists_of_parse (fun p hparse h =>
    have ⟨p', hparse', halike⟩ := hsame.of_ok hparse
    ⟨p', hparse, hparse', h, halike⟩) ?_
  decide +kernel

end ShaderSource
