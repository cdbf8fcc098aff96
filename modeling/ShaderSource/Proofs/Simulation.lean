import ShaderSource.Proofs.Congruence

/-!
# Readings that agree

Two readings of one input, with tables of different kinds, are compared step by step: they come to
the same, and their states stay related. A `Comparison` says how states relate, which errors both
may stop with, and after which errors of the first reading nothing is asked of the second one.

## Main results

* `Parser.Comparison.congruence`: parsers that agree from a place on form a congruence.
-/

namespace ShaderSource

/-- Rules nested too deeply. -/
def Error.TooDeep (e : Error) : Prop :=
  ∃ span, e = .nestingTooDeep span

namespace Parser

variable {μ ν α : Type}

/-- How two readings of an input compare. -/
structure Comparison (μ ν : Type) where
  input : Input
  /-- How states relate. -/
  States : Progress μ → Progress ν → Prop
  /-- The errors that both readings may stop with. -/
  Keeps : Error → Prop
  /-- The errors of the first reading after which the second one may do anything. -/
  Spares : Error → Prop
  note : ∀ {s s'} place expected, States s s' →
    States ⟨s.table, s.failure.note place expected⟩ ⟨s'.table, s'.failure.note place expected⟩
  forbidden : ∀ span, Keeps (.invalidSwitchBody span)

namespace Comparison

variable (C : Comparison μ ν)

/-- Outcomes that agree. A match ends as `Ends` says. -/
inductive Agree (Ends : α → Nat → Prop) : Except Error (Option (α × Nat) × Progress μ) →
    Except Error (Option (α × Nat) × Progress ν) → Prop
  | spared {e o} (h : C.Spares e) : Agree Ends (.error e) o
  | error {e} (h : C.Keeps e) : Agree Ends (.error e) (.error e)
  | failed {t t'} (h : C.States t t') : Agree Ends (.ok (none, t)) (.ok (none, t'))
  | matched {a j t t'} (h : C.States t t') (hend : Ends a j) :
      Agree Ends (.ok (some (a, j), t)) (.ok (some (a, j), t'))

variable {C} in
theorem Agree.mono {Ends Ends' : α → Nat → Prop} {o : Except Error (Option (α × Nat) × Progress μ)}
    {o' : Except Error (Option (α × Nat) × Progress ν)} (h : C.Agree Ends o o')
    (hends : ∀ a j, Ends a j → Ends' a j) : C.Agree Ends' o o' := by
  cases h with
  | spared h => exact .spared h
  | error h => exact .error h
  | failed h => exact .failed h
  | matched h hend => exact .matched h (hends _ _ hend)

section Agree

variable {C} {β : Type} {Ends : α → Nat → Prop} {p p' : Parser μ α} {q q' : Parser ν α} {i : Nat}
  {s : Progress μ} {s' : Progress ν} (h : C.Agree Ends (p C.input i s) (q C.input i s'))

include h

/-- Readings agree that go on from matches so that they agree. -/
theorem Agree.andThen {Ends' : β → Nat → Prop} {f : α → Parser μ β} {g : α → Parser ν β}
    (hf : ∀ a j t t', Ends a j → C.States t t' →
      C.Agree Ends' (f a C.input j t) (g a C.input j t')) :
    C.Agree Ends' (p.andThen f C.input i s) (q.andThen g C.input i s') := by
  unfold Parser.andThen
  generalize p C.input i s = o at h ⊢
  generalize q C.input i s' = o' at h ⊢
  cases h with
  | spared h => exact .spared h
  | error h => exact .error h
  | failed h => exact .failed h
  | matched h hend => exact hf _ _ _ _ hend h

/-- Readings agree that go on from failures so that they agree. -/
theorem Agree.orElse
    (hp' : ∀ t t', C.States t t' → C.Agree Ends (p' C.input i t) (q' C.input i t')) :
    C.Agree Ends (p.orElse p' C.input i s) (q.orElse q' C.input i s') := by
  unfold Parser.orElse
  generalize p C.input i s = o at h ⊢
  generalize q C.input i s' = o' at h ⊢
  cases h with
  | spared h => exact .spared h
  | error h => exact .error h
  | failed h => exact hp' _ _ h
  | matched h hend => exact .matched h hend

end Agree

/-- The parsers agree from a place on. -/
def Simulates (low : Nat) (p : Parser μ α) (q : Parser ν α) : Prop :=
  ∀ i s s', low ≤ i → C.States s s' → C.Agree (fun _ j => low ≤ j) (p C.input i s) (q C.input i s')

/-- Parsers that agree from a place on form a congruence. -/
theorem congruence (low : Nat) : Congruence fun _ p q => C.Simulates low p q where
  look f noted := by
    intro i s s' hi hs
    have hnoted := C.note i (noted C.input i) hs
    unfold look
    cases f C.input i with
    | none => exact .failed hnoted
    | some r => exact .matched hnoted (Nat.le_add_right_of_le hi)
  stop place := fun _ _ _ _ _ => .error (C.forbidden _)
  andThen hp hf i s s' hi hs := (hp i s s' hi hs).andThen fun a => hf a
  orElse hp hp' i s s' hi hs := (hp i s s' hi hs).orElse fun t t' => hp' i t t' hi

end Comparison

end Parser

end ShaderSource
