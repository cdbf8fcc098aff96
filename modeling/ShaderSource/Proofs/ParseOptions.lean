import ShaderSource.Proofs.Formatting

/-!
# What options change

Which tree a source is read as depends on the source, on the rule to start with, and on whether
places are asked for; errors are given the name of the source. Then names are bound, which always
succeeds, and is the same whatever the options are (`Program.parse_eq`). Only at the end it matters
whether diagnostics are errors: the outcome is then the first one, if there is any.

## Main results

* `readTree_located`: places do not matter for what is read.
* `Program.parse_options`: what options change.
-/

namespace ShaderSource

open List Node Program

/-! ### The name of the source -/

/-- The error of a source with the given name. -/
def Error.named (source : Option String) : Error → Error
  | .unexpected e => .unexpected { e with source }
  | e => e

theorem readTree_named (start : Start) (text : String) (located : Bool)
    (source source' : Option String) :
    readTree start ⟨Lexemes.ofString text, located⟩ source' =
      (readTree start ⟨Lexemes.ofString text, located⟩ source).mapError (Error.named source') := by
  rw [readTree_eq, readTree_eq]
  rcases houtcome : start.outcome ⟨Lexemes.ofString text, located⟩ with e | ⟨_ | _, t⟩
  · rcases Start.outcome_error houtcome with ⟨span, rfl⟩ | ⟨span, rfl⟩ <;> rfl
  · rfl
  · rfl

/-! ### Places -/

/-- The same source twice, with places or without. -/
def Alignment.ofLocated (text : String) (located located' : Bool) : Alignment where
  first := ⟨Lexemes.ofString text, located⟩
  second := ⟨Lexemes.ofString text, located'⟩
  Agrees _ := True
  tidy t := t
  Failures := Eq
  Errors := Eq
  failures_initial := rfl
  first_regular := Lexemes.ofString_regular text located
  second_regular := Lexemes.ofString_regular text located'
  accepts_eq _ _ _ := rfl
  tidy_eq _ _ := rfl
  note := Failure.note_congr
  tooDeep _ := rfl
  forbidden _ := rfl

/-- **Places do not matter for what is read**, but for the spans of nodes. -/
theorem readTree_located (start : Start) (text : String) (located located' : Bool)
    (source : Option String) :
    (readTree start ⟨Lexemes.ofString text, located⟩ source).map Node.bare =
      (readTree start ⟨Lexemes.ofString text, located'⟩ source).map Node.bare := by
  have hview : Start.Views (Lexemes.ofString text).leading (Lexemes.ofString text).leading
      (fun t => t) Node.bare := by
    intro ns ms span span' hns
    simp only [Node.bare, retoken_mk, map_cons, map_nil, Part.retoken_text,
      Part.retoken_list, hns]
  have hfollows : (Alignment.ofLocated text located located').Follows Node.bare
      (start.outcome ⟨Lexemes.ofString text, located⟩)
      (start.outcome ⟨Lexemes.ofString text, located'⟩) :=
    start.outcome_follows (Alignment.ofLocated text located located') hview
      (.of_agrees (fun _ => trivial) _ _)
  rw [readTree_eq, readTree_eq]
  generalize start.outcome ⟨Lexemes.ofString text, located⟩ = o at hfollows ⊢
  generalize start.outcome ⟨Lexemes.ofString text, located'⟩ = o' at hfollows ⊢
  cases hfollows with
  | @error e e' he => exact congrArg Except.error he
  | @failed t t' hm =>
    have hfailure : t.failure = t'.failure := hm.failure
    change Except.error (t.failure.error ⟨Lexemes.ofString text, located⟩ source) =
      Except.error (t'.failure.error ⟨Lexemes.ofString text, located'⟩ source)
    rw [hfailure]
    rfl
  | matched hbare _ => exact congrArg Except.ok hbare

section Signatures

variable {n m : Node}

theorem Node.bare_mk (k : Kind) (i : NodeId) (span : Option Span) (ps : List Part) :
    (Node.mk k i span ps).bare = .mk k i none (ps.map (Part.mapNodes Node.bare)) := by
  rw [Node.bare, retoken_mk, Part.retoken_eq_mapNodes]

theorem Node.source_bare (n : Node) : n.bare.source = n.source := by
  refine source_congr ?_
  rw [eq_comm, ← forall₂_eq_eq_eq]
  induction n using induction with
  | h n ih =>
    obtain ⟨k, i, s, ps⟩ := n
    rw [children_mk] at ih
    rw [bare_mk]
    exact Part.tokensAll_alike (fun _ => rfl) (Part.mapNodes_alike_all ih)

theorem Node.name?_bare (n : Node) : n.bare.name? = n.name? :=
  name?_retoken (fun _ => rfl) n

theorem Node.AllFit.dimensionText_bare (h : n.AllFit) (hkind : n.kind = .arraySpecifier) :
    n.bare.dimensionText = n.dimensionText := by
  refine h.kind_cases hkind fun _ _ _ e _ _ _ => ?_
  rw [bare_mk]
  cases e with
  | none => rfl
  | some e => simp [Part.mapNodes, Node.dimensionText, source_bare]

theorem Node.AllFit.typeBase_bare (h : n.AllFit) :
    n.bare.typeBase = n.typeBase := by
  by_cases hstruct : n.kind = .structSpecifier
  · refine h.kind_cases hstruct fun _ _ _ name _ _ _ _ _ _ => ?_
    rw [bare_mk]
    cases name with
    | none => rfl
    | some name => simp [Part.mapNodes, Node.typeBase, name?_bare]
  · have hbase : ∀ n : Node, n.kind ≠ .structSpecifier → n.typeBase = n.name?.getD "" := by
      intro n hn
      unfold Node.typeBase
      split
      · exact absurd rfl hn
      · rfl
    rw [hbase _ hstruct, hbase _ (by rwa [kind_retoken]), name?_bare]

theorem dimensionTexts_bare {dimensions : List Node}
    (h : ∀ d ∈ dimensions, d.AllFit ∧ d.kind = .arraySpecifier) :
    (dimensions.map Node.bare).map Node.dimensionText = dimensions.map Node.dimensionText := by
  rw [map_map]
  exact map_congr_left fun d hd => (h d hd).1.dimensionText_bare (h d hd).2

theorem Node.AllFit.typeText_bare (h : n.AllFit) (hkind : n.kind = .typeSpecifier)
    {more : List Node} (hmore : ∀ d ∈ more, d.AllFit ∧ d.kind = .arraySpecifier) :
    n.bare.typeText (more.map Node.bare) = n.typeText more := by
  refine h.kind_cases hkind fun _ _ base hbase dimensions hdimensions h => ?_
  have hall : ∀ d ∈ dimensions ++ more, d.AllFit ∧ d.kind = .arraySpecifier := by
    intro d hd
    rcases mem_append.mp hd with hd | hd
    · exact ⟨h.child (by simp [Part.nodes, hd]), mem_singleton.mp (hdimensions d hd)⟩
    · exact hmore d hd
  rw [bare_mk]
  simp only [map_cons, map_nil, Part.mapNodes, Node.typeText]
  rw [← map_append, dimensionTexts_bare hall,
    AllFit.typeBase_bare (h.child (by simp [Part.nodes]))]

theorem Node.AllFit.fullTypeText_bare (h : n.AllFit) (hkind : n.kind = .fullySpecifiedType) :
    n.bare.typeText [] = n.typeText [] := by
  refine h.kind_cases hkind fun _ _ _ _ type htype h => ?_
  rw [bare_mk]
  simp only [map_cons, map_nil, Part.mapNodes, Node.typeText]
  have hnone : ∀ d ∈ ([] : List Node), d.AllFit ∧ d.kind = .arraySpecifier := by simp
  exact AllFit.typeText_bare (h.child (by simp [Part.nodes])) (mem_singleton.mp htype)
    hnone

theorem Node.AllFit.parameterType_bare (h : n.AllFit) (hkind : n.kind = .parameter) :
    n.bare.parameterType = n.parameterType := by
  refine h.kind_cases hkind fun _ _ _ _ type htype _ _ dimensions hdimensions h => ?_
  rw [bare_mk]
  simp only [map_cons, map_nil, Part.mapNodes, Node.parameterType]
  rw [AllFit.typeText_bare (h.child (by simp [Part.nodes])) (mem_singleton.mp htype)]
  exact fun d hd => ⟨h.child (by simp [Part.nodes, hd]), mem_singleton.mp (hdimensions d hd)⟩

theorem prototypeSignature_bare {result : Node} {parameters : List Node}
    (hresult : result.AllFit ∧ result.kind = .fullySpecifiedType)
    (hparameters : ∀ m ∈ parameters, m.AllFit ∧ m.kind = .parameter) :
    prototypeSignature result.bare (parameters.map Node.bare) =
      prototypeSignature result parameters := by
  have htypes : (parameters.map Node.bare).mapM Node.parameterType =
      parameters.mapM Node.parameterType := by
    induction parameters with
    | nil => rfl
    | cons m ms ih =>
      rw [forall_mem_cons] at hparameters
      rw [map_cons, mapM_cons, mapM_cons, ih hparameters.2,
        hparameters.1.1.parameterType_bare hparameters.1.2]
  rw [prototypeSignature, prototypeSignature, htypes, hresult.1.fullTypeText_bare hresult.2]

theorem Node.AllFit.prototypeSignature_bare (h : n.AllFit) (hkind : n.kind = .functionPrototype) :
    n.bare.prototypeSignature = n.prototypeSignature := by
  have hresult : ∀ r ∈ n.along [0, 0], r.AllFit ∧ r.kind = .fullySpecifiedType := by
    intro r hr
    simp only [Node.along, flatMap_singleton', mem_flatMap] at hr
    obtain ⟨header, hheader, hr⟩ := hr
    obtain ⟨hfit, hkind'⟩ := h.of_field (k := .functionHeader) hheader (by rw [hkind]; rfl)
    exact hfit.of_field hr (by rw [hkind']; rfl)
  have hparameters : ∀ m ∈ n.field 1, m.AllFit ∧ m.kind = .parameter :=
    fun m hm => h.of_field hm (by rw [hkind]; rfl)
  rw [Node.prototypeSignature, Node.prototypeSignature, along_retoken, field_retoken,
    map_map]
  congr 1
  refine map_congr_left fun r hr => ?_
  rw [Function.comp_apply, ShaderSource.prototypeSignature_bare (hresult r hr) hparameters]

end Signatures

/-! ### Programs -/

/-- The diagnostic without its place. -/
def Diagnostic.unlocated (d : Diagnostic) : Diagnostic :=
  { d with span := none }

/-- The scope without its range. -/
def Scope.unlocated (s : Scope) : Scope :=
  { s with span := none }

/-- The program without the spans of its nodes, scopes and diagnostics. -/
def Program.unlocated (p : Program) : Program :=
  ⟨p.root.bare, ⟨p.scopes.scopes.map Scope.unlocated⟩, p.diagnostics.map Diagnostic.unlocated⟩

/-- The error with the place of a diagnostic in it left out. -/
def Error.unlocated : Error → Error
  | .diagnostic d => .diagnostic d.unlocated
  | e => e

theorem Scope.outline_true : Scope.outline true = Scope.unlocated := by
  funext s
  have hfunctions : (s.functions.map fun f => (f.1, f.2.outline true)) = s.functions :=
    map_id _
  rw [Scope.outline, hfunctions]
  rfl

theorem Diagnostic.outlines_true (ds : List Diagnostic) :
    Diagnostic.outlines true ds = ds.map Diagnostic.unlocated := by
  simp [Diagnostic.outlines, Diagnostic.unlocated]

/-- Trees that are the same up to spans are bound as programs that are. -/
theorem Program.ofRead_bare {tree tree' : Node} (h : tree.bare = tree'.bare) (hfit : tree.AllFit)
    (hfit' : tree'.AllFit) :
    (Program.ofRead tree).unlocated = (Program.ofRead tree').unlocated := by
  have hnumber := number_retoken (fun t => t) tree 0
  rw [show tree.retoken _ = _ from h, number_retoken, Prod.mk.injEq] at hnumber
  obtain ⟨hroot, hlast⟩ := hnumber
  have hfits := number_allFit hfit 0
  have hfits' := number_allFit hfit' 0
  have halike : (tree.number 0).1.Alike (fun t => t) (tree'.number 0).1 := hroot.symm
  have hsignature : ∀ k k' : Node, k.Alike (fun t => t) k' → k.AllFit → k'.AllFit →
      k.kind = .functionPrototype →
        k.prototypeSignature.outline true = k'.prototypeSignature.outline true := by
    intro k k' hk hkfit hkfit' hkind
    rw [← hkfit.prototypeSignature_bare hkind, show k.bare = k'.bare from hk,
      hkfit'.prototypeSignature_bare (hk.kind ▸ hkind)]
  have hoccurrences := halike.occurrences (fun _ => rfl) hfits hfits' hsignature .plain
  have hinitial : (Binding.initial (tree.number 0).1.span (tree.number 0).2).names.outline true =
      (Binding.initial (tree'.number 0).1.span (tree'.number 0).2).names.outline true := by
    rw [hlast]
    rfl
  obtain ⟨hnames, hreports⟩ := Names.outline_run hinitial hoccurrences
  have hscopes := congrArg Names.scopes hnames
  have hcallees := congrArg Names.callees hnames
  simp only [Names.outline, Names.withScopes, ScopeTree.outline, Scope.outline_true] at hscopes
  rw [Diagnostic.outlines_true, Diagnostic.outlines_true] at hreports
  rw [mk.injEq]
  refine ⟨?_, hscopes, hreports⟩
  change ((tree.number 0).1.exchangeCallees _).retoken _ =
    ((tree'.number 0).1.exchangeCallees _).retoken _
  rw [hfits.retoken_exchangeCallees, hfits'.retoken_exchangeCallees, hroot]
  exact congrArg (Node.exchangeCallees · _) hcallees

/-- An outcome without spans. -/
def Program.outcomeUnlocated (o : Except Error Program) : Except Error Program :=
  (o.map Program.unlocated).mapError Error.unlocated

theorem Program.judged_unlocated {p p' : Program} (h : p.unlocated = p'.unlocated) (strict : Bool) :
    Program.outcomeUnlocated (p.judged strict) = Program.outcomeUnlocated (p'.judged strict) := by
  have hprograms : Program.outcomeUnlocated (.ok p) = Program.outcomeUnlocated (.ok p') :=
    congrArg Except.ok h
  have hdiagnostics : p.diagnostics.map Diagnostic.unlocated =
      p'.diagnostics.map Diagnostic.unlocated := congrArg Program.diagnostics h
  cases strict with
  | false => exact hprograms
  | true =>
    simp only [Program.judged, if_true, Program.unreported]
    cases hd : p.diagnostics with
    | nil =>
      rw [hd, map_nil, eq_comm, map_eq_nil_iff] at hdiagnostics
      rw [hdiagnostics]
      exact hprograms
    | cons d ds =>
      cases hd' : p'.diagnostics with
      | nil =>
        rw [hd, hd'] at hdiagnostics
        cases hdiagnostics
      | cons d' ds' =>
        rw [hd, hd', map_cons, map_cons, cons.injEq] at hdiagnostics
        exact congrArg (fun d => Except.error (Error.diagnostic d)) hdiagnostics.1

theorem Program.judged_named (p : Program) (strict : Bool) (source : Option String) :
    (p.judged strict).mapError (Error.named source) = p.judged strict := by
  cases strict with
  | false => rfl
  | true =>
    simp only [Program.judged, if_true, Program.unreported]
    split <;> rfl

/-- **What options change.** Whether diagnostics are logged and how the source is called matters for
the name of the source in an error only, whether places are asked for matters for spans only, and
if diagnostics are errors, then the first one takes the place of the program. -/
theorem Program.parse_options (text : String) (o : Options) :
    (∀ quiet source, Program.parse text { o with quiet, source } =
      (Program.parse text o).mapError (Error.named source)) ∧
    (∀ located, Program.outcomeUnlocated (Program.parse text { o with located }) =
      Program.outcomeUnlocated (Program.parse text o)) ∧
    Program.parse text { o with strict := true } =
      (Program.parse text { o with strict := false }).bind Program.unreported := by
  refine ⟨fun quiet source => ?_, fun located => ?_, ?_⟩
  all_goals simp only [parse_eq, Program.readText]
  · rw [readTree_named _ _ _ o.source]
    cases readTree o.start ⟨Lexemes.ofString text, o.located⟩ o.source with
    | error e => rfl
    | ok tree => exact ((Program.ofRead tree).judged_named o.strict source).symm
  · have htrees := readTree_located o.start text located o.located o.source
    rcases htree : readTree o.start ⟨Lexemes.ofString text, located⟩ o.source with e | tree <;>
      rcases htree' : readTree o.start ⟨Lexemes.ofString text, o.located⟩ o.source with e' | tree'
    all_goals rw [htree, htree'] at htrees
    · rw [Except.error.inj htrees]
    · cases htrees
    · cases htrees
    · exact judged_unlocated (ofRead_bare (Except.ok.inj htrees)
        (readTree_allFit htree) (readTree_allFit htree')) o.strict
  · cases readTree o.start ⟨Lexemes.ofString text, o.located⟩ o.source with
    | error e => rfl
    | ok tree => rfl

end ShaderSource
