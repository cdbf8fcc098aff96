import ShaderSource.Proofs.Resemblance
import ShaderSource.Proofs.Spacing

/-!
# Reading a relabelled tree back

A tree that was read and then given other names is written and read again. What comes of it is the
tree with the other names: the source has the same lexemes but for the names, so it is read as a
tree of the same shape, and its tokens are those of the tree that was written.

## Main results

* `readTree_relabel`: the text of a relabelled tree is read as that tree, up to spans.
-/

namespace ShaderSource

variable {names : Registry NodeId String} {text : String} {ts : List Token}

/-- A token takes the place of another: it has the same trivia, and the same text unless both are
names. -/
def Token.Replaces (t t' : Token) : Prop :=
  t'.trivia = t.trivia ∧
    (t'.text = t.text ∨ Scan.isIdentifier t.text = true ∧ Scan.isIdentifier t'.text = true)

theorem Token.replaces_self (t : Token) : t.Replaces t :=
  ⟨rfl, .inl rfl⟩

/-- New names for a tree are names. -/
def Node.GivesNames (names : Registry NodeId String) (n : Node) : Prop :=
  ∀ m ∈ n.preorder, m.kind.IsName → ∀ name, names.get? m.id = some name →
    Scan.isIdentifier name = true

/-- Relabelling a tree that was read exchanges names for names. -/
theorem Node.AllRead.tokens_relabel {n : Node} (h : n.AllRead) (hnames : n.GivesNames names) :
    List.Forall₂ Token.Replaces n.tokens (n.relabel names).tokens := by
  refine Node.tokens_relabel Token.replaces_self fun kind id span t hkind hmem name hget => ?_
  obtain ⟨t', hparts, ht⟩ := (h _ hmem).name hkind
  obtain rfl : t = t' := by simpa [Node.leaf, Node.parts] using hparts
  exact ⟨rfl, .inr ⟨ht, hnames _ hmem hkind name hget⟩⟩

/-- Tokens that replace those of lexemes of a source are admitted by the lexemes. -/
theorem Lexemes.admits_of_replaces
    (h : List.Forall₂ Token.Replaces ((ofString text).body.toList.map Lexeme.token) ts) :
    List.Forall₂ Lexeme.Admits (ofString text).body.toList ts := by
  rw [List.forall₂_map_left_iff] at h
  refine ((List.forall₂_and_left _ _).mpr ⟨fun _ hl => hl, h⟩).imp ?_
  rintro l t ⟨hl, htrivia, hsame | ⟨hl', ht⟩⟩
  · exact ⟨htrivia, .inl hsame⟩
  · exact ⟨htrivia, .inr ⟨(identifier_iff hl).mpr hl', ht⟩⟩

/-- Lexemes with other tokens look like what they were. -/
theorem Lexeme.Admits.looksLike {l m : Lexeme} {t : Token} (h : l.Admits t)
    (hm : Scan.SameText (l.withToken t) m) : l.LooksLike m := by
  obtain ⟨hkind, htoken⟩ := hm
  have htext : m.text = t.text := congrArg Token.text htoken
  refine ⟨hkind, ?_⟩
  rcases h.2 with hsame | ⟨hl, -⟩
  · exact .inl (htext.trans hsame)
  · exact .inr hl

/-- A source in which names were exchanged looks like what it was. -/
theorem Input.looksLike_of_exchange {text' : String}
    (hts : List.Forall₂ Lexeme.Admits (Lexemes.ofString text).body.toList ts)
    (hbody : List.Forall₂ Scan.SameText
      (List.zipWith Lexeme.withToken (Lexemes.ofString text).body.toList ts)
      (Lexemes.ofString text').body.toList) (located located' : Bool) :
    Input.LooksLike ⟨Lexemes.ofString text, located⟩ ⟨Lexemes.ofString text', located'⟩ := by
  have hlike : List.Forall₂ Lexeme.LooksLike (Lexemes.ofString text).body.toList
      (Lexemes.ofString text').body.toList := by
    generalize (Lexemes.ofString text).body.toList = ls at hts hbody ⊢
    generalize (Lexemes.ofString text').body.toList = ms at hbody ⊢
    induction hts generalizing ms with
    | nil =>
      cases hbody
      exact .nil
    | cons hl _ ih =>
      cases hbody with
      | cons hm hms => exact .cons (hl.looksLike hm) (ih _ hms)
  have hsize : (Lexemes.ofString text').body.size = (Lexemes.ofString text).body.size := by
    simpa using hlike.length_eq.symm
  constructor
  · rw [Input.bound, Input.bound, hsize]
  · intro k
    rcases Nat.lt_or_ge k (Lexemes.ofString text).body.size with hk | hk
    · have hk' : k < (Lexemes.ofString text').body.size := Nat.lt_of_lt_of_eq hk hsize.symm
      have hget := hlike.get (i := k) (by simpa using hk) (by simpa using hk')
      simpa [Input.lexeme, Lexemes.get, hk, hk'] using hget
    · rw [Input.lexeme, Input.lexeme, Lexemes.get_of_size_le hk,
        Lexemes.get_of_size_le (Nat.le_trans (Nat.le_of_eq hsize) hk)]
      exact ⟨rfl, .inl rfl⟩

theorem Lexemes.tokens_of_exchange {ls ms : List Lexeme} (hts : List.Forall₂ Lexeme.Admits ls ts)
    (hms : List.Forall₂ Scan.SameText (List.zipWith Lexeme.withToken ls ts) ms) :
    ms.map Lexeme.token = ts := by
  induction hts generalizing ms with
  | nil =>
    cases hms
    rfl
  | cons _ _ ih =>
    cases hms with
    | cons hm hms => rw [List.map_cons, ih hms, hm.2]; rfl

/-- **The text of a relabelled tree is read as that tree**, up to spans, and its nodes are numbered
as before. -/
theorem readTree_relabel {start : Start} {located : Bool} {source : Option String} {tree : Node}
    (h : readTree start ⟨Lexemes.ofString text, located⟩ source = .ok tree)
    (hnames : (tree.number 0).1.GivesNames names) (located' : Bool) (source' : Option String) :
    ∃ tree', readTree start
        ⟨Lexemes.ofString ((tree.number 0).1.relabel names).source, located'⟩ source' =
          .ok tree' ∧
      (tree'.number 0).1.bare = ((tree.number 0).1.relabel names).bare ∧
      (tree'.number 0).2 = (tree.number 0).2 := by
  obtain ⟨htokens, hread⟩ := readTree_yields h
  have hreplaced := (hread.number 0).tokens_relabel hnames
  rw [Node.tokens_number, htokens, List.forall₂_cons_left_iff] at hreplaced
  obtain ⟨t, ts, ht, hts, hnew⟩ := hreplaced
  obtain rfl : t = ⟨"", (Lexemes.ofString text).leading⟩ := by
    obtain ⟨htrivia, hsame | ⟨hname, -⟩⟩ := ht
    · exact congrArg₂ Token.mk hsame htrivia
    · cases hname
  have hadmits := Lexemes.admits_of_replaces hts
  have hsource : ((tree.number 0).1.relabel names).source =
      (Lexemes.ofString text).leading ++ String.join (ts.map Token.source) := by
    rw [Node.source_eq_join, hnew, List.map_cons, String.join_cons]
    simp [Token.source]
  obtain ⟨hleading, hbody⟩ := Lexemes.ofString_exchange (readTree_separated h) hadmits
  rw [← hsource] at hleading hbody
  obtain ⟨tree', htree', hshape⟩ := readTree_mirrors
    (Input.looksLike_of_exchange hadmits hbody located located') hleading.symm h source'
  obtain ⟨hshape', hlast⟩ := Node.number_shape hshape 0
  refine ⟨tree', htree', ?_, hlast.symm⟩
  have hstep : ((tree.number 0).1.relabel names).InStep :=
    ((Node.number_allFit (readTree_allFit h) 0).relabel names).inStep
  refine (Node.bare_eq_of_shape hstep ?_ ?_).symm
  · rw [Node.shape_relabel, hshape']
  · rw [hnew, Node.tokens_number, (readTree_yields htree').1, hleading,
      Lexemes.tokens_of_exchange hadmits hbody]

end ShaderSource
