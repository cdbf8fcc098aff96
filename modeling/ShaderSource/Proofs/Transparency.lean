import ShaderSource.Program
import ShaderSource.Proofs.Derivation
import ShaderSource.Proofs.Simulation

/-!
# Remembering changes nothing

Reading with rules that remember comes to the same as reading without, as long as the latter does
not nest too deeply: the same tree up to the same place, the same error, and, whether it matches
or fails, the same furthest failure.

A request that the table answers leaves out a run of a production. Two things have to be seen about
the run that is left out. It would have had the remembered outcome: outcomes do not depend on the
depth at which a rule is read, once that depth is enough (`Rule.readPlainly_unique`). And it would
have left the furthest failure as it is: a run notes the same expectations whatever was noted
before (`Rule.readPlainly_regular`), these were noted when the rule was first read, and noting
them again changes nothing (`Failure.noteAll_eq_self`). A table is faithful if both hold of all it
knows, and every step of reading keeps it so.

## Main results

* `Rule.readPlainly_regular`: what a plain run notes does not depend on what was noted before.
* `Rule.readPlainly_mono`: more depth does not change a run that has enough.
* `Rule.read_simulates`: reading a rule with a faithful table follows the plain run.
* `Program.reading_transparent`: whole sources are read the same with and without remembering.
-/

namespace ShaderSource

open List Memo ShaderSource.Parser

variable {s : String} {l new old expected : List String} {f : Failure} {place depth i : Nat}
  {r : Rule} {input : Input} {m : Memo} {p : Parser Memo Node}

/-! ### The furthest failure -/

namespace Failure

/-- The expectations are in strictly ascending order. -/
def Ascending (f : Failure) : Prop :=
  f.expected.Pairwise (· < ·)

theorem mem_insertAscending {x : String} : x ∈ insertAscending s l ↔ x = s ∨ x ∈ l := by
  induction l with
  | nil => simp [insertAscending]
  | cons t ts ih =>
    simp only [insertAscending]
    split
    · simp
    · split
      · rename_i heq
        subst heq
        simp
      · simp only [mem_cons, ih]
        exact or_left_comm

theorem lt_of_not_lt_of_ne {t : String} (hlt : ¬ s < t) (hne : s ≠ t) : t < s := by
  by_cases h : t < s
  · exact h
  · exact absurd (String.le_antisymm h hlt) hne

theorem pairwise_insertAscending (h : l.Pairwise (· < ·)) :
    (insertAscending s l).Pairwise (· < ·) := by
  induction l with
  | nil => simp [insertAscending]
  | cons t ts ih =>
    rw [pairwise_cons] at h
    simp only [insertAscending]
    split
    · rename_i hlt
      refine pairwise_cons.mpr ⟨?_, pairwise_cons.mpr h⟩
      intro x hx
      rcases mem_cons.mp hx with rfl | hx
      · exact hlt
      · exact String.lt_trans hlt (h.1 x hx)
    · split
      · exact pairwise_cons.mpr h
      · rename_i hlt hne
        refine pairwise_cons.mpr ⟨?_, ih h.2⟩
        intro x hx
        rcases mem_insertAscending.mp hx with rfl | hx
        · exact lt_of_not_lt_of_ne hlt hne
        · exact h.1 x hx

theorem insertAscending_of_mem (h : l.Pairwise (· < ·)) (hs : s ∈ l) : insertAscending s l = l := by
  induction l with
  | nil => cases hs
  | cons t ts ih =>
    rw [pairwise_cons] at h
    simp only [insertAscending]
    split
    · rename_i hlt
      rcases mem_cons.mp hs with rfl | hs
      · exact absurd hlt (String.lt_irrefl s)
      · exact absurd hlt (String.lt_asymm (h.1 s hs))
    · split
      · rfl
      · rename_i hne
        rw [ih h.2 ((mem_cons.mp hs).resolve_left hne)]

theorem mem_insertAll {x : String} : x ∈ insertAll new old ↔ x ∈ new ∨ x ∈ old := by
  induction new generalizing old with
  | nil => simp [insertAll]
  | cons s new ih =>
    have hstep : insertAll (s :: new) old = insertAll new (insertAscending s old) := rfl
    rw [hstep, ih, mem_insertAscending, mem_cons]
    exact or_left_comm.trans or_assoc.symm

theorem pairwise_insertAll (h : old.Pairwise (· < ·)) : (insertAll new old).Pairwise (· < ·) := by
  induction new generalizing old with
  | nil => exact h
  | cons s new ih => exact ih (pairwise_insertAscending h)

theorem insertAll_of_subset (h : old.Pairwise (· < ·)) (hsub : ∀ s ∈ new, s ∈ old) :
    insertAll new old = old := by
  induction new with
  | nil => rfl
  | cons s new ih =>
    rw [forall_mem_cons] at hsub
    have hstep : insertAll (s :: new) old = insertAll new (insertAscending s old) := rfl
    rw [hstep, insertAscending_of_mem h hsub.1, ih hsub.2]

theorem ascending_initial : initial.Ascending :=
  List.Pairwise.nil

theorem Ascending.note (h : f.Ascending) (place : Nat) (expected : List String) :
    (f.note place expected).Ascending := by
  unfold Failure.note
  split
  · exact h
  · split
    · exact pairwise_insertAll h
    · exact pairwise_insertAll List.Pairwise.nil

/-- Noting the expectations at the place would bring nothing new. -/
def Absorbs (f : Failure) (place : Nat) (expected : List String) : Prop :=
  expected = [] ∨ place < f.place ∨ place = f.place ∧ ∀ s ∈ expected, s ∈ f.expected

theorem note_eq_self (h : f.Ascending) (habsorbs : f.Absorbs place expected) :
    f.note place expected = f := by
  rcases habsorbs with rfl | hlt | ⟨rfl, hsub⟩
  · exact note_nil f place
  · simp [note, hlt]
  · simp [note, insertAll_of_subset h hsub]

theorem absorbs_note (f : Failure) (place : Nat) (expected : List String) :
    (f.note place expected).Absorbs place expected := by
  unfold note
  split
  · rename_i hskip
    rcases Bool.or_eq_true _ _ |>.mp hskip with hempty | hlt
    · exact .inl (by simpa using hempty)
    · exact .inr (.inl (by simpa using hlt))
  · split
    · exact .inr (.inr ⟨rfl, fun s hs => mem_insertAll.mpr (.inl hs)⟩)
    · exact .inr (.inr ⟨rfl, fun s hs => mem_insertAll.mpr (.inl hs)⟩)

/-- What is absorbed stays absorbed whatever else is noted. -/
theorem Absorbs.note (h : f.Absorbs place expected) (place' : Nat) (expected' : List String) :
    (f.note place' expected').Absorbs place expected := by
  unfold Failure.note
  split
  · exact h
  · rename_i hskip
    have hle : f.place ≤ place' := by simp at hskip; omega
    rcases h with hempty | hlt | ⟨heq, hsub⟩
    · exact .inl hempty
    · split
      · exact .inr (.inl (by simp only; omega))
      · exact .inr (.inl (by simp only; omega))
    · split
      · rename_i hsame
        refine .inr (.inr ⟨by simp only; omega, fun s hs => ?_⟩)
        exact mem_insertAll.mpr (.inr (hsub s hs))
      · exact .inr (.inl (by simp only; omega))

/-- The failure after a series of notes. -/
def noteAll (f : Failure) (notes : List (Nat × List String)) : Failure :=
  notes.foldl (fun f n => f.note n.1 n.2) f

theorem noteAll_append (f : Failure) (ns ms : List (Nat × List String)) :
    f.noteAll (ns ++ ms) = (f.noteAll ns).noteAll ms :=
  foldl_append

/-- Every note of the series would bring nothing new. -/
def AbsorbsAll (f : Failure) (notes : List (Nat × List String)) : Prop :=
  ∀ n ∈ notes, f.Absorbs n.1 n.2

theorem noteAll_eq_self (h : f.Ascending) {ns : List (Nat × List String)}
    (habsorbs : f.AbsorbsAll ns) : f.noteAll ns = f := by
  induction ns with
  | nil => rfl
  | cons n ns ih =>
    have hn := note_eq_self h (habsorbs n mem_cons_self)
    have hstep : f.noteAll (n :: ns) = (f.note n.1 n.2).noteAll ns := rfl
    rw [hstep, hn]
    exact ih fun m hm => habsorbs m (mem_cons_of_mem n hm)

theorem Absorbs.noteAll (h : f.Absorbs place expected) (ns : List (Nat × List String)) :
    (f.noteAll ns).Absorbs place expected := by
  induction ns generalizing f with
  | nil => exact h
  | cons n ns ih => exact ih (h.note n.1 n.2)

theorem absorbsAll_noteAll (f : Failure) (ns : List (Nat × List String)) :
    (f.noteAll ns).AbsorbsAll ns := by
  induction ns generalizing f with
  | nil => simp [AbsorbsAll]
  | cons n ns ih =>
    intro m hm
    rcases mem_cons.mp hm with rfl | hm
    · exact (absorbs_note f m.1 m.2).noteAll ns
    · exact ih (f.note n.1 n.2) m hm

end Failure

/-! ### Plain runs -/

namespace Parser

variable {μ α : Type}

/-- Two readings that have noted the same, one since the furthest failure was `f`, the other since
it was `g`. -/
def Comparison.noting (f g : Failure) (input : Input) : Comparison Unit Unit where
  input := input
  States s s' := ∃ ns, s.failure = f.noteAll ns ∧ s'.failure = g.noteAll ns
  Keeps _ := True
  Spares _ := False
  note := by
    rintro ⟨⟨⟩, _⟩ ⟨⟨⟩, _⟩ place expected ⟨ns, rfl, rfl⟩
    refine ⟨ns ++ [(place, expected)], ?_, ?_⟩ <;> rw [Failure.noteAll_append] <;> rfl
  forbidden _ := trivial

/-- The second reading does what the first one does, unless that nests too deeply. -/
def Comparison.below (μ : Type) (input : Input) : Comparison μ μ where
  input := input
  States := Eq
  Keeps _ := True
  Spares := Error.TooDeep
  note := fun _ _ h => h ▸ rfl
  forbidden _ := trivial

theorem Comparison.below_cases {p q : Parser μ α} (h : (below μ input).Simulates 0 p q) (i : Nat)
    (s : Progress μ) :
    (∃ span, p input i s = .error (.nestingTooDeep span)) ∨ q input i s = p input i s := by
  have hrun : (below μ input).Agree _ (p input i s) (q input i s) := h i s s (Nat.zero_le _) rfl
  generalize p input i s = o at hrun ⊢
  generalize q input i s = o' at hrun ⊢
  cases hrun with
  | spared h =>
    obtain ⟨span, rfl⟩ := h
    exact .inl ⟨span, rfl⟩
  | error => exact .inr rfl
  | failed h | matched h => exact .inr (by rw [show _ = _ from h])

end Parser

namespace Rule

/-- What a plain run notes does not depend on what was noted before. -/
theorem readPlainly_regular (f g : Failure) (depth : Nat) (r : Rule) :
    (Comparison.noting f g input).Simulates 0 (readPlainly depth r) (readPlainly depth r) := by
  induction depth generalizing r with
  | zero => exact fun i s s' _ _ => .error trivial
  | succ depth ih => exact (Comparison.congruence _ 0).parser ih (Grammar.production r)

/-- A plain run notes the same whatever was noted before, and has the same outcome. -/
theorem readPlainly_notes {f' : Failure} {o : Option (Node × Nat)}
    (h : readPlainly depth r input i ⟨(), f⟩ = .ok (o, ⟨(), f'⟩)) (g : Failure) :
    ∃ ns, f' = f.noteAll ns ∧
      readPlainly depth r input i ⟨(), g⟩ = .ok (o, ⟨(), g.noteAll ns⟩) := by
  have hrun : (Comparison.noting f g input).Agree _ (readPlainly depth r input i ⟨(), f⟩)
      (readPlainly depth r input i ⟨(), g⟩) :=
    readPlainly_regular f g depth r i ⟨(), f⟩ ⟨(), g⟩ (Nat.zero_le _) ⟨[], rfl, rfl⟩
  rw [h] at hrun
  generalize readPlainly depth r input i ⟨(), g⟩ = x at hrun ⊢
  cases hrun with
  | failed h | matched h =>
    obtain ⟨ns, hf, hg⟩ := h
    exact ⟨ns, hf, by rw [← hg]⟩

/-- More depth does not change a run that has enough. -/
theorem readPlainly_mono {depth' : Nat} (hle : depth ≤ depth') (r : Rule) :
    (Comparison.below Unit input).Simulates 0 (readPlainly depth r) (readPlainly depth' r) := by
  induction depth generalizing depth' r with
  | zero => exact fun i s s' _ _ => .spared ⟨_, rfl⟩
  | succ depth ih =>
    obtain ⟨depth', rfl⟩ : ∃ d, depth' = d + 1 := ⟨depth' - 1, by omega⟩
    exact (Comparison.congruence _ 0).parser (fun r => ih (by omega) r) (Grammar.production r)

/-- What a run with enough depth yields is what any other depth yields, if it is enough. -/
theorem readPlainly_unique {s : Progress Unit} {x : Option (Node × Nat) × Progress Unit}
    (hx : readPlainly depth r input i s = .ok x) (depth' : Nat) :
    (∃ span, readPlainly depth' r input i s = .error (.nestingTooDeep span)) ∨
      readPlainly depth' r input i s = .ok x := by
  rcases Nat.le_total depth depth' with hle | hle
  · rcases Comparison.below_cases (readPlainly_mono hle r) i s with ⟨span, hdeep⟩ | heq
    · rw [hx] at hdeep
      cases hdeep
    · exact .inr (heq.trans hx)
  · rcases Comparison.below_cases (readPlainly_mono hle r) i s with hdeep | heq
    · exact .inl hdeep
    · exact .inr (heq.symm.trans hx)

end Rule

/-! ### Faithful tables -/

/-- What is remembered of an outcome is true of it. -/
def Memory.Fits : Memory → Option (Node × Nat) → Prop
  | .failed, o => o = none
  | .matched, o => o.isSome = true
  | .kept n next, o => o = some (n, next)

theorem Memo.memoryOf_fits (again : Bool) (o : Option (Node × Nat)) :
    (memoryOf again o).Fits o := by
  cases o with
  | none => rfl
  | some r =>
    cases again with
    | true => rfl
    | false => rfl

/-- A table is faithful at a point of a run if whatever it knows is the outcome of a plain run, and
what that run notes brings nothing new. -/
structure Memo.Faithful (input : Input) (m : Memo) (f : Failure) : Prop where
  ascending : f.Ascending
  known : ∀ place r memory, m.find? place r = some memory →
    ∃ depth o, memory.Fits o ∧ ∀ g, ∃ ns, f.AbsorbsAll ns ∧
      Rule.readPlainly depth r input place ⟨(), g⟩ = .ok (o, ⟨(), g.noteAll ns⟩)

theorem Memo.faithful_empty (input : Input) : Faithful input empty Failure.initial where
  ascending := Failure.ascending_initial
  known := by
    intro place r memory h
    rw [find?_empty] at h
    cases h

theorem Memo.Faithful.note (h : Faithful input m f) (place : Nat) (expected : List String) :
    Faithful input m (f.note place expected) where
  ascending := h.ascending.note place expected
  known := by
    intro place' r memory hfind
    obtain ⟨depth, o, hfits, hruns⟩ := h.known place' r memory hfind
    refine ⟨depth, o, hfits, fun g => ?_⟩
    obtain ⟨ns, habsorbs, hrun⟩ := hruns g
    exact ⟨ns, fun n hn => (habsorbs n hn).note place expected, hrun⟩

/-- With a faithful table the second reading follows the plain run of the first one, unless that
nests too deeply, and leaves a faithful table. -/
def Parser.Comparison.faithful (input : Input) : Comparison Unit Memo where
  input := input
  States s s' := s'.failure = s.failure ∧ Faithful input s'.table s.failure
  Keeps _ := True
  Spares := Error.TooDeep
  note := fun place expected h =>
    ⟨congrArg (Failure.note · place expected) h.1, h.2.note place expected⟩
  forbidden _ := trivial

/-! ### Rules -/

/-- What a faithful table knows of a rule is what a plain run of it yields, and that run notes
nothing new. -/
theorem Memo.Faithful.plain_of_find? (hm : Faithful input m f) {memory : Memory}
    (hfind : m.find? i r = some memory) (depth : Nat) :
    (∃ span, Rule.readPlainly depth r input i ⟨(), f⟩ = .error (.nestingTooDeep span)) ∨
      ∃ o, memory.Fits o ∧ Rule.readPlainly depth r input i ⟨(), f⟩ = .ok (o, ⟨(), f⟩) := by
  obtain ⟨depth', o, hfits, hruns⟩ := hm.known i r memory hfind
  obtain ⟨ns, habsorbs, hrun⟩ := hruns f
  rw [Failure.noteAll_eq_self hm.ascending habsorbs] at hrun
  rcases Rule.readPlainly_unique hrun depth with hdeep | hsame
  · exact .inl hdeep
  · exact .inr ⟨o, hfits, hsame⟩

theorem Memo.Faithful.insert {f' : Failure} (hm : Faithful input m f')
    {o : Option (Node × Nat)} (hrun : Rule.readPlainly depth r input i ⟨(), f⟩ = .ok (o, ⟨(), f'⟩))
    (again : Bool) : Faithful input (m.insert i r (Memo.memoryOf again o)) f' where
  ascending := hm.ascending
  known := by
    intro place r' memory hfind
    rw [find?_insert] at hfind
    split at hfind
    · rename_i hsame
      obtain ⟨rfl, rfl⟩ := hsame
      obtain rfl := Option.some.inj hfind
      refine ⟨depth, o, memoryOf_fits again o, fun g => ?_⟩
      obtain ⟨ns, rfl, hnotes⟩ := Rule.readPlainly_notes hrun g
      exact ⟨ns, Failure.absorbsAll_noteAll f ns, hnotes⟩
    · exact hm.known place r' memory hfind

/-- A request that the table does not answer follows the plain run of the rule. -/
theorem Memo.remembered_agrees {again : Bool} {o : Parser.Result Node}
    {Ends : Node → Nat → Prop}
    (h : (Comparison.faithful input).Agree Ends (Rule.readPlainly depth r input i ⟨(), f⟩) o) :
    (Comparison.faithful input).Agree Ends (Rule.readPlainly depth r input i ⟨(), f⟩)
      (remembered i r again o) := by
  generalize hplain : Rule.readPlainly depth r input i ⟨(), f⟩ = plain at h ⊢
  cases h with
  | spared h => exact .spared h
  | error h => exact .error h
  | failed h => exact .failed ⟨h.1, h.2.insert hplain again⟩
  | matched h hend => exact .matched ⟨h.1, h.2.insert hplain again⟩ hend

/-- A request with a faithful table follows the plain run of the rule. -/
theorem Memo.request_simulates
    (h : (Comparison.faithful input).Simulates 0 (Rule.readPlainly depth r) p) :
    (Comparison.faithful input).Simulates 0 (Rule.readPlainly depth r) (request r p) := by
  rintro i ⟨⟨⟩, f⟩ ⟨m, f'⟩ hi ⟨hf, hm⟩
  obtain rfl : f' = f := hf
  have hrun := h i _ ⟨m, f'⟩ hi ⟨rfl, hm⟩
  change (Comparison.faithful input).Agree _ (Rule.readPlainly depth r input i _)
    (request r p input i ⟨m, f'⟩)
  rcases request_cases r p input i ⟨m, f'⟩ with
    ⟨hknown, heq⟩ | ⟨n, next, hknown, heq⟩ | ⟨again, -, heq⟩ <;> rw [heq]
  · rcases hm.plain_of_find? hknown depth with ⟨span, hdeep⟩ | ⟨o, hfits, hplain⟩
    · exact hdeep ▸ .spared ⟨span, rfl⟩
    · rw [hplain, show o = none from hfits]
      exact .failed ⟨rfl, hm⟩
  · rcases hm.plain_of_find? hknown depth with ⟨span, hdeep⟩ | ⟨o, hfits, hplain⟩
    · exact hdeep ▸ .spared ⟨span, rfl⟩
    · rw [hplain, show o = some (n, next) from hfits]
      exact .matched ⟨rfl, hm⟩ (Nat.zero_le _)
  · exact remembered_agrees hrun

/-- Reading a rule with a faithful table follows the plain run. -/
theorem Rule.read_simulates (depth : Nat) (r : Rule) :
    (Comparison.faithful input).Simulates 0 (Rule.readPlainly depth r) (Rule.read depth r) := by
  induction depth generalizing r with
  | zero =>
    rw [Rule.read, Rule.readWith]
    exact request_simulates fun i s s' _ _ => .spared ⟨_, rfl⟩
  | succ depth ih =>
    rw [Rule.read, Rule.readWith]
    exact request_simulates ((Comparison.congruence _ 0).parser ih (Grammar.production r))

/-! ### Sources -/

/-- What comes of running a parser from the start of the input: its result and the place behind it
if it matches, and the furthest failure in either case. -/
def Parser.outcome {μ α : Type} (p : Parser μ α) (table : μ) (input : Input) :
    Except Error (Option (α × Nat) × Failure) :=
  (p input 0 ⟨table, Failure.initial⟩).map fun r => (r.1, r.2.failure)

theorem Parser.outcome_eq_of_simulates {α : Type} {p : Parser Unit α} {q : Parser Memo α}
    (h : (Comparison.faithful input).Simulates 0 p q)
    (hdepth : ∀ span, p.outcome () input ≠ .error (.nestingTooDeep span)) :
    q.outcome empty input = p.outcome () input := by
  have hrun : (Comparison.faithful input).Agree _ (p input 0 ⟨(), Failure.initial⟩)
      (q input 0 ⟨empty, Failure.initial⟩) :=
    h 0 _ _ (Nat.le_refl _) ⟨rfl, faithful_empty input⟩
  unfold Parser.outcome at hdepth ⊢
  generalize p input 0 ⟨(), Failure.initial⟩ = o at hrun hdepth ⊢
  generalize q input 0 ⟨empty, Failure.initial⟩ = o' at hrun ⊢
  cases hrun with
  | spared h =>
    obtain ⟨span, rfl⟩ := h
    exact absurd rfl (hdepth span)
  | error => rfl
  | failed h => exact congrArg (fun f => Except.ok (none, f)) h.1
  | matched h => exact congrArg (fun f => Except.ok (some _, f)) h.1

/-- The result of a run is a matter of its outcome. -/
theorem Parser.run_eq_of_outcome_eq {μ ν α : Type} {p : Parser μ α} {q : Parser ν α} {table : μ}
    {table' : ν} (h : p.outcome table input = q.outcome table' input) (source : Option String) :
    p.run table input source = q.run table' input source := by
  have key : ∀ {κ : Type} (p : Parser κ α) (table : κ), p.run table input source =
      match p.outcome table input with
      | .error e => .error e
      | .ok (some (a, _), _) => .ok a
      | .ok (none, f) => .error (f.error input source) := by
    intro κ p table
    unfold Parser.run Parser.outcome
    rcases p input 0 ⟨table, Failure.initial⟩ with e | ⟨_ | ⟨a, k⟩, s⟩ <;> rfl
  rw [key p, key q, h]

/-- **Remembering changes nothing.** If a source is read without remembering and that does not nest
too deeply, then reading it with rules that remember has the same outcome: the same error, or the
same tree up to the same place, or a failure, and the same furthest failure with the same
expectations. So the numbered trees, or the errors, are the same. -/
theorem Program.reading_transparent (text : String) (options : Options)
    (hdepth : ∀ span,
      (options.start.root (Rule.readPlainly Rule.maxDepth)
        (Lexemes.ofString text).leading).outcome () ⟨Lexemes.ofString text, options.located⟩ ≠
      .error (.nestingTooDeep span)) :
    (options.start.root (Rule.read Rule.maxDepth)
      (Lexemes.ofString text).leading).outcome Memo.empty
        ⟨Lexemes.ofString text, options.located⟩ =
    (options.start.root (Rule.readPlainly Rule.maxDepth)
      (Lexemes.ofString text).leading).outcome () ⟨Lexemes.ofString text, options.located⟩ ∧
    Program.readNumbered text options =
      (readTreePlainly options.start ⟨Lexemes.ofString text, options.located⟩
        options.source).map (Node.number 0) := by
  have houtcome := Parser.outcome_eq_of_simulates
    ((Comparison.congruence _ 0).root (Rule.read_simulates Rule.maxDepth) options.start
      (Lexemes.ofString text).leading) hdepth
  refine ⟨houtcome, ?_⟩
  unfold Program.readNumbered Program.readText readTree readTreePlainly
  rw [Parser.run_eq_of_outcome_eq houtcome options.source]

/-- A source in which alternatives want the same rules at the same places many times. -/
theorem Program.reading_transparent_conditional :
    let input : Input := ⟨Lexemes.ofString "int a = (b ? c : d).e[1];", false⟩
    let plain := (Start.translationUnit.root (Rule.readPlainly Rule.maxDepth)
      input.lexemes.leading).outcome () input
    plain.isOk = true ∧
      (Start.translationUnit.root (Rule.read Rule.maxDepth) input.lexemes.leading).outcome
        Memo.empty input = plain := by
  intro input plain
  have hok : plain.isOk = true := by decide +kernel
  refine ⟨hok, (Program.reading_transparent "int a = (b ? c : d).e[1];" Options.default ?_).1⟩
  intro span herror
  rw [show plain = .error (.nestingTooDeep span) from herror] at hok
  cases hok

end ShaderSource
