import ShaderSource.Program
import ShaderSource.Proofs.BindingPlan
import ShaderSource.Proofs.Keywords
import ShaderSource.Proofs.Signature

/-!
# Signatures of prototypes

The type of a result or of a parameter is a word, with the texts of its dimensions behind it. So the
signatures of prototypes are as `ShaderSource.Proofs.Signature` has them.

## Main results

* `Node.FromSource.wellFormed`: the signature of a prototype is well-formed.
-/

namespace ShaderSource

open List Node

/-- A tree as it comes from a source: it has the form of trees, and its names and reserved words are
words. -/
structure Node.FromSource (n : Node) : Prop where
  fit : n.AllFit
  read : n.AllRead
  words : n.All HoldsWord

namespace Node.FromSource

variable {n m : Node}

theorem below (h : n.FromSource) (hm : m ∈ n.preorder) : m.FromSource where
  fit := h.fit.below hm
  read := fun x hx => h.read x (mem_preorder_trans hm hx)
  words := fun x hx => h.words x (mem_preorder_trans hm hx)

theorem child (h : n.FromSource) (hm : m ∈ n.children) : m.FromSource :=
  h.below (child_mem_preorder hm)

end Node.FromSource

/-- Numbering keeps the words of nodes. -/
theorem Node.All.number_holdsWord {n : Node} (h : n.All HoldsWord) (last : NodeId) :
    (n.number last).1.All HoldsWord := by
  intro m hm
  obtain ⟨⟨k, i, s, ps⟩, hm', last', rfl⟩ := mem_number hm
  intro hkind
  obtain ⟨t, hparts, ht⟩ := h _ hm' hkind
  obtain rfl : ps = [.token t] := hparts
  exact ⟨t, rfl, ht⟩

theorem Program.fromSource_of_readNumbered {text : String} {options : Options} {tree : Node}
    {last : NodeId} (h : Program.readNumbered text options = .ok (tree, last)) :
    tree.FromSource := by
  rw [Program.readNumbered] at h
  cases hread : Program.readText text options with
  | error e =>
    rw [hread] at h
    cases h
  | ok root =>
    rw [hread] at h
    obtain ⟨rfl, rfl⟩ := Prod.mk.inj (Except.ok.inj h)
    exact ⟨number_allFit (readTree_allFit hread) 0, (readTree_yields hread).2.number 0,
      (readTree_keywords hread).number_holdsWord 0⟩

/-! ### Types -/

namespace Signature

theorem isWordText_of_isWord {x : String} (h : Scan.isWord x.toList = true) : IsWordText x := by
  unfold IsWordText
  cases hx : x.toList with
  | nil => simp
  | cons c cs =>
    rw [hx, Scan.isWord, Bool.and_eq_true, all_eq_true] at h
    rw [forall_mem_cons]
    exact ⟨Scan.continuesWord_of_startsWord h.1, h.2⟩

theorem isWordText_of_isIdentifier {x : String} (h : Scan.isIdentifier x = true) :
    IsWordText x := by
  rw [Scan.isIdentifier, Bool.and_eq_true] at h
  exact isWordText_of_isWord h.1

/-- A word with dimensions behind it is a type. -/
theorem IsWordText.with_dimensions {x : String} (h : IsWordText x) (dimensions : List Node) :
    IsTypeText (x ++ String.join (dimensions.map dimensionText)) := by
  refine ⟨x.toList, (String.join (dimensions.map dimensionText)).toList,
    String.toList_append, h, ?_⟩
  cases dimensions with
  | nil => simp
  | cons d ds =>
    have hd : ∃ cs, d.dimensionText.toList = '[' :: cs := by
      unfold dimensionText
      split
      · exact ⟨_, by rw [String.toList_append, String.toList_append]; rfl⟩
      · exact ⟨_, rfl⟩
    obtain ⟨cs, hcs⟩ := hd
    simp [hcs]

end Signature

namespace Node.FromSource

open Signature

variable {n : Node}

/-- The name of a type is a word. -/
theorem isWordText_name (h : n.FromSource) (hkind : n.kind = .typeName) :
    ∃ x, n.name? = some x ∧ IsWordText x := by
  obtain ⟨t, hparts, ht⟩ := (h.read n n.mem_preorder_self).name (.inr hkind)
  obtain ⟨k, id, span, parts⟩ := n
  obtain rfl : k = .typeName := hkind
  obtain rfl : parts = [.token t] := hparts
  exact ⟨t.text, rfl, isWordText_of_isIdentifier ht⟩

/-- Without its dimensions a type is a word. -/
theorem isWordText_typeBase (h : n.FromSource) (hkind : n.kind ∈ Kind.types) :
    IsWordText n.typeBase := by
  simp only [Kind.types, mem_cons, not_mem_nil, or_false] at hkind
  rcases hkind with hkind | hkind | hkind
  · obtain ⟨t, hparts, ht⟩ := h.words n n.mem_preorder_self hkind
    obtain ⟨k, id, span, parts⟩ := n
    obtain rfl : k = .keyword := hkind
    obtain rfl : parts = [.token t] := hparts
    exact isWordText_of_isWord ht
  · obtain ⟨x, hx, hword⟩ := h.isWordText_name hkind
    have hbase : n.typeBase = x := by
      obtain ⟨k, id, span, parts⟩ := n
      obtain rfl : k = .typeName := hkind
      simp [typeBase, hx]
    rwa [hbase]
  · have hfit := h.fit
    revert h
    refine hfit.kind_cases hkind fun _ _ _ name hname _ _ _ _ _ h => ?_
    cases name with
    | none =>
      simp only [typeBase, Option.bind_none, Option.getD_none]
      exact .of_all (by decide)
    | some m =>
      obtain ⟨x, hx, hword⟩ := (h.child (m := m) (by simp [Part.nodes])).isWordText_name
        (mem_singleton.mp (hname m rfl))
      simpa [typeBase, hx] using hword

theorem isTypeText_specifier (h : n.FromSource) (hkind : n.kind = .typeSpecifier)
    (more : List Node) : IsTypeText (n.typeText more) := by
  have hfit := h.fit
  revert h
  refine hfit.kind_cases hkind fun _ _ base hbase dimensions _ _ h => ?_
  rw [typeText]
  exact ((h.child (by simp [Part.nodes])).isWordText_typeBase hbase).with_dimensions _

theorem isTypeText_full (h : n.FromSource) (hkind : n.kind = .fullySpecifiedType)
    (more : List Node) : IsTypeText (n.typeText more) := by
  have hfit := h.fit
  revert h
  refine hfit.kind_cases hkind fun _ _ qualifiers _ type htype _ h => ?_
  rw [typeText]
  exact (h.child (by simp [Part.nodes])).isTypeText_specifier (mem_singleton.mp htype) more

theorem isTypeText_parameter (h : n.FromSource) (hkind : n.kind = .parameter) {x : String}
    (hx : n.parameterType = .ok x) : IsTypeText x := by
  have hfit := h.fit
  revert h hx
  refine hfit.kind_cases hkind fun _ _ _ _ type htype _ _ dimensions _ _ h hx => ?_
  obtain rfl := Except.ok.inj hx
  exact (h.child (by simp [Part.nodes])).isTypeText_specifier (mem_singleton.mp htype) _

end Node.FromSource

/-! ### Signatures -/

/-- The types of parameters, one by one. -/
theorem parameterType_of_mapM {parameters : List Node} {types : List String}
    (h : parameters.mapM parameterType = .ok types) {x : String} (hx : x ∈ types) :
    ∃ m ∈ parameters, m.parameterType = .ok x := by
  induction parameters generalizing types with
  | nil =>
    cases h
    cases hx
  | cons m ms ih =>
    rw [mapM_cons] at h
    cases htype : m.parameterType with
    | error e =>
      rw [htype] at h
      cases h
    | ok type =>
      cases htypes : ms.mapM parameterType with
      | error e =>
        rw [htype, htypes] at h
        cases h
      | ok rest =>
        rw [htype, htypes] at h
        obtain rfl : type :: rest = types := Except.ok.inj h
        rcases mem_cons.mp hx with rfl | hx
        · exact ⟨m, mem_cons_self, htype⟩
        · obtain ⟨m', hm', hx'⟩ := ih htypes hx
          exact ⟨m', mem_cons_of_mem _ hm', hx'⟩

theorem Signature.wellFormed_declared {result : String} {parameters : List String}
    (hresult : IsTypeText result) (hparameters : ∀ x ∈ parameters, IsTypeText x) :
    (Signature.declared result parameters).WellFormed := by
  have hvoid : IsTypeText void := (isWordText_of_isWord rfl).isTypeText
  constructor
  · unfold declared
    split
    · exact cons_ne_nil _ _
    · rename_i hne
      simpa using hne
  · rw [types, declared, forall_mem_cons]
    refine ⟨hresult, ?_⟩
    split
    · simpa using hvoid
    · exact hparameters

/-- The signature of a prototype is well-formed. -/
theorem Node.FromSource.wellFormed {n : Node} (h : n.FromSource)
    (hkind : n.kind = .functionPrototype) : n.prototypeSignature.WellFormed := by
  obtain ⟨id, span, result, name, t, parameters, ts, t', hn, -⟩ := h.fit.prototype_eq hkind
  have hheader := h.child (m := headerNode id span result name t) (by rw [hn]; simp [Part.nodes])
  have hresult : result.FromSource ∧ result.kind = .fullySpecifiedType := by
    refine ⟨hheader.child (by simp [Part.nodes]), ?_⟩
    exact hheader.fit.fits.kind_eq 0 rfl rfl rfl (by simp [Part.nodes])
  have hparameters : ∀ m ∈ parameters, m.FromSource ∧ m.kind = .parameter := by
    intro m hm
    refine ⟨h.child (by rw [hn]; simp [Part.nodes, hm]), ?_⟩
    rw [hn] at h
    exact h.fit.fits.kind_eq 1 rfl rfl rfl (by simpa [Part.nodes] using hm)
  obtain ⟨signature, hsignature⟩ := prototypeSignature_ok result
    fun m hm => ⟨(hparameters m hm).1.fit, (hparameters m hm).2⟩
  have hself : n.prototypeSignature = signature := by
    rw [hn, Node.prototypeSignature]
    simp [along, Part.nodes, hsignature, Except.toOption]
  rw [hself]
  rw [ShaderSource.prototypeSignature] at hsignature
  cases htypes : parameters.mapM parameterType with
  | error e =>
    rw [htypes] at hsignature
    cases hsignature
  | ok types =>
    rw [htypes] at hsignature
    rw [← Except.ok.inj hsignature]
    refine Signature.wellFormed_declared (hresult.1.isTypeText_full hresult.2 []) ?_
    intro x hx
    split at hx
    · cases hx
    · obtain ⟨m, hm, hx⟩ := parameterType_of_mapM htypes hx
      exact (hparameters m hm).1.isTypeText_parameter (hparameters m hm).2 hx

end ShaderSource
