import ShaderSource.Program
import ShaderSource.Proofs.Yield

/-!
# Nothing of a source is lost

The source text of a program is the text that it was read from. Three things go into this: the
lexemes tile the text (`ShaderSource.Proofs.Tiling`), the tree that is read has the lexemes as its
tokens (`ShaderSource.Proofs.Yield`), and neither the numbering of a tree nor the exchange of
callees changes its tokens.

## Main results

* `Node.source_number`, `Node.source_exchangeCallees`: what follows the reading keeps the text.
* `source_of_readTree`: the text of the tree that is read is the source.
* `Program.source_of_parse`: the text of a program is the text it was read from.
-/

namespace ShaderSource

/-- Trees with the same tokens have the same text. -/
theorem Node.source_congr {n m : Node} (h : n.tokens = m.tokens) : n.source = m.source := by
  rw [Node.source_eq_join, Node.source_eq_join, h]

theorem Node.source_number (n : Node) (last : NodeId) : (n.number last).1.source = n.source :=
  Node.source_congr (Node.tokens_number n last)

theorem Node.source_exchangeCallees (callees : Registry NodeId NodeId) (n : Node) :
    (n.exchangeCallees callees).source = n.source :=
  Node.source_congr (Node.tokens_exchangeCallees callees n)

/-- The tree of a source spells the source. -/
theorem source_of_readTree {start : Start} {text : String} {located : Bool}
    {source : Option String} {root : Node}
    (h : readTree start ⟨Lexemes.ofString text, located⟩ source = .ok root) :
    root.source = text := by
  obtain ⟨htokens, -⟩ := readTree_yields h
  have hwhole := (Lexemes.ofString_tiles text).whole
  rw [Lexemes.rest, List.drop_zero] at hwhole
  rw [Node.source_eq_join, htokens, List.map_cons, String.join_cons, List.map_map, Token.source,
    String.empty_append]
  exact hwhole

/-- What reading a program consists of: its tree is read and numbered, its names are bound, and the
callees that are functions are exchanged. -/
theorem Program.parse_eq_ok {text : String} {options : Options} {p : Program}
    (h : Program.parse text options = .ok p) :
    ∃ tree b, Program.readText text options = .ok tree ∧
      Binding.ofTree options.policy (tree.number 0).1 (tree.number 0).2 = (.ok (), b) ∧
      p = ⟨(tree.number 0).1.exchangeCallees b.callees, b.scopes, b.diagnostics⟩ := by
  unfold Program.parse Program.parseLogged Program.readNumbered at h
  cases htree : Program.readText text options with
  | error e =>
    rw [htree] at h
    cases h
  | ok tree =>
    rw [htree] at h
    simp only [Except.map] at h
    split at h
    · cases h
    · rename_i b hbind
      simp only [Except.ok.injEq] at h
      exact ⟨tree, b, rfl, hbind, h.symm⟩

/-- **Lossless round trip**: whatever a source is read as and with whatever options, the text of
the program is the source, character for character. -/
theorem Program.source_of_parse {text : String} {options : Options} {p : Program}
    (h : Program.parse text options = .ok p) : p.source = text := by
  obtain ⟨tree, b, htree, -, rfl⟩ := Program.parse_eq_ok h
  calc ((tree.number 0).1.exchangeCallees b.callees).source
      = (tree.number 0).1.source := Node.source_exchangeCallees _ _
    _ = tree.source := Node.source_number tree 0
    _ = text := source_of_readTree htree

/-- The round trip at a source with a comment, a call before its declaration and a list with a
comma after its last node. -/
theorem Program.source_of_parse_call :
    ∃ p, Program.parse "int a[2] = { f( 1 ), 2, }; // end" Options.default = .ok p ∧
      p.source = "int a[2] = { f( 1 ), 2, }; // end" := by
  have hok : (Program.parse "int a[2] = { f( 1 ), 2, }; // end" Options.default).isOk = true := by
    decide +kernel
  cases hparse : Program.parse "int a[2] = { f( 1 ), 2, }; // end" Options.default with
  | error e =>
    rw [hparse] at hok
    cases hok
  | ok p => exact ⟨p, rfl, Program.source_of_parse hparse⟩

end ShaderSource
