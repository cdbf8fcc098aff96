import ShaderSource.Proofs.Leading

/-!
# How often a rule is read at a place

A production is read at most twice at any one place: once when its rule is first wanted there, and
once more, if it matched, when the rule is wanted again. It is never read again where it failed, and
its rule is never wanted at its own place while it is being read.

To say so of runs that end with an error too, a run is watched. A `Watch` is a table together with a
record of all readings of productions, and `Watch.request` does what `Memo.request` does, but stops
with an alarm as soon as one of the three is about to be broken. Whatever the alarm is, a watched
run comes to what an unwatched one comes to.

## Main results

* `Watch.request_begins`: a request raises no alarm if the production is not being read at its
  place, nor one above it.
* `Start.root_watched`: no run raises an alarm.
-/

namespace ShaderSource

open List ShaderSource.Parser

/-- A table, with a record of the readings of productions. -/
structure Watch where
  memo : Memo
  /-- What is being read, the innermost first. -/
  running : List (Nat × Rule)
  /-- What has been read, the last first, and whether it matched. -/
  ended : List ((Nat × Rule) × Bool)

namespace Watch

/-- Nothing was read yet. -/
def initial : Watch :=
  ⟨.empty, [], []⟩

/-- Whether the production matched, for each time that it was read at the place. -/
def results (w : Watch) (e : Nat × Rule) : List Bool :=
  (w.ended.filter fun entry => entry.1 = e).map Prod.snd

/-- Whether the production may be read at the place: it was read there at most once before, and did
not fail. -/
def permits (w : Watch) (e : Nat × Rule) : Bool :=
  (w.results e).length < 2 && !(w.results e).contains false

/-- The record once the production begins to be read. -/
def started (w : Watch) (e : Nat × Rule) : Watch :=
  { w with running := e :: w.running }

/-- The table and the record once it has been read. -/
def finished (w : Watch) (e : Nat × Rule) (again : Bool) (o : Option (Node × Nat)) : Watch :=
  ⟨w.memo.insert e.1 e.2 (Memo.memoryOf again o), w.running.tail, (e, o.isSome) :: w.ended⟩

/-- Reads a rule by the parser `p`, unless the table knows what comes of it. It is an alarm if the
rule is being read at this place already, and if the production may not be read here again. -/
def request (alarm : Error) (r : Rule) (p : Parser Watch Node) : Parser Watch Node :=
  fun input place progress =>
    if progress.table.running.contains (place, r) then .error alarm
    else
      match progress.table.memo.find? place r with
      | some .failed => .ok (none, progress)
      | some (.kept node next) => .ok (some (node, next), progress)
      | known =>
        if progress.table.permits (place, r) then
          match p input place ⟨progress.table.started (place, r), progress.failure⟩ with
          | .error e => .error e
          | .ok (outcome, after) =>
            .ok (outcome,
              { after with table := after.table.finished (place, r) known.isSome outcome })
        else .error alarm

/-- The state without the record. -/
def forget (s : Progress Watch) : Progress Memo :=
  ⟨s.table.memo, s.failure⟩

/-! ### Orderly records -/

/-- The table and the record fit: what the table does not know was not read, what matched and was
wanted once was read once, and what is kept has taken a lexeme. -/
structure Orderly (w : Watch) (input : Input) : Prop where
  fresh : ∀ e : Nat × Rule, w.memo.find? e.1 e.2 = none → w.results e = []
  once : ∀ e : Nat × Rule, w.memo.find? e.1 e.2 = some .matched → w.results e = [true]
  kept : ∀ (e : Nat × Rule) n next, w.memo.find? e.1 e.2 = some (.kept n next) →
    e.1 < next ∧ (input.lexeme e.1).isEnd = false

/-- A watched reading and an unwatched one, while the same productions are being read as at first,
which are not read again meanwhile. -/
def comparison (input : Input) (w : Watch) : Comparison Watch Memo where
  input := input
  States s s' := s' = forget s ∧ s.table.Orderly input ∧ s.table.running = w.running ∧
    ∀ e ∈ w.running, s.table.results e = w.results e
  Keeps _ := True
  Spares _ := False
  note := by
    rintro s _ place expected ⟨rfl, h⟩
    exact ⟨rfl, h⟩
  forbidden _ := trivial

variable {input : Input} {w : Watch} {e : Nat × Rule} {again : Bool} {o : Option (Node × Nat)}

theorem results_finished (e' : Nat × Rule) :
    (w.finished e again o).results e' =
      if e = e' then o.isSome :: w.results e' else w.results e' := by
  unfold results finished
  rw [filter_cons]
  by_cases h : e = e' <;> simp [h]

/-- A record stays orderly when a reading ends. -/
theorem Orderly.finished (h : w.Orderly input) (hfresh : again = false → w.results e = [])
    (hend : ∀ n next, o = some (n, next) → e.1 < next ∧ (input.lexeme e.1).isEnd = false) :
    (w.finished e again o).Orderly input := by
  have hfind : ∀ e' : Nat × Rule, (w.finished e again o).memo.find? e'.1 e'.2 =
      if e = e' then some (Memo.memoryOf again o) else w.memo.find? e'.1 e'.2 := by
    intro e'
    rw [Watch.finished, Memo.find?_insert]
    exact if_congr Prod.ext_iff.symm rfl rfl
  constructor
  · intro e' hnone
    rw [hfind] at hnone
    rw [results_finished]
    split at hnone
    · cases hnone
    · rename_i hne
      rw [if_neg hne, h.fresh e' hnone]
  · intro e' hmatched
    rw [hfind] at hmatched
    rw [results_finished]
    split at hmatched
    · rename_i heq
      subst heq
      cases o with
      | none => cases hmatched
      | some r =>
        cases again with
        | true => cases hmatched
        | false => rw [if_pos rfl, hfresh rfl, Option.isSome_some]
    · rename_i hne
      rw [if_neg hne, h.once e' hmatched]
  · intro e' n next hkept
    rw [hfind] at hkept
    split at hkept
    · rename_i heq
      subst heq
      exact hend n next (Memo.memoryOf_eq_kept (Option.some.inj hkept))
    · exact h.kept e' n next hkept

theorem orderly_initial (input : Input) : initial.Orderly input := by
  have hempty : ∀ e : Nat × Rule, initial.memo.find? e.1 e.2 = none :=
    fun e => Memo.find?_empty e.1 e.2
  refine ⟨fun _ _ => rfl, fun e h => ?_, fun e n next h => ?_⟩ <;> rw [hempty] at h <;> cases h

/-- What the table does not answer may be read. -/
theorem Orderly.permits (h : w.Orderly input)
    (hfind : w.memo.find? e.1 e.2 = if again then some .matched else none) :
    w.permits e = true := by
  unfold Watch.permits
  cases again with
  | false => rw [h.fresh e hfind]; rfl
  | true => rw [h.once e hfind]; rfl

variable {i : Nat} {r : Rule} {alarm : Error}

/-- A request raises no alarm if only rules before its place, or above it, are being read. -/
theorem request_begins {p : Parser Watch Node} {q : Parser Memo Node}
    (habove : ∀ e ∈ w.running, e.1 < i ∨ e.1 = i ∧ r.rank < e.2.rank)
    (h : ∀ w : Watch, (∀ e ∈ w.running, e.1 < i ∨ e.1 = i ∧ r.rank < e.2.rank) →
      (comparison input (w.started (i, r))).Begins i (fun _ => true) p q) :
    (comparison input w).Begins i (fun _ => true) (request alarm r p) (Memo.request r q) := by
  rintro s _ ⟨rfl, horderly, hrunning, hresults⟩
  have hnot : (i, r) ∉ s.table.running := by
    intro hmem
    rcases habove _ (hrunning ▸ hmem) with hlt | ⟨-, hlt⟩ <;> exact Nat.lt_irrefl _ hlt
  have hbody := h s.table (hrunning ▸ habove) ⟨s.table.started (i, r), s.failure⟩ (forget s)
    ⟨rfl, ⟨horderly.fresh, horderly.once, horderly.kept⟩, rfl, fun _ _ => rfl⟩
  change (comparison input w).Agree _ (request alarm r p input i s)
    (Memo.request r q input i (forget s))
  rw [request, if_neg (by simpa using hnot)]
  rcases Memo.request_cases r q input i (forget s) with
    ⟨hfind, heq⟩ | ⟨n, next, hfind, heq⟩ | ⟨again, hfind, heq⟩ <;>
    rw [heq, show s.table.memo.find? i r = _ from hfind]
  · exact .failed ⟨rfl, horderly, hrunning, hresults⟩
  · exact .matched ⟨rfl, horderly, hrunning, hresults⟩ (.inl (horderly.kept (i, r) n next hfind))
  · -- the production is read, and the record of what is being read outside is as before
    have hstates : ∀ {t : Progress Watch} {t' : Progress Memo} {o : Option (Node × Nat)},
        (comparison input (s.table.started (i, r))).States t t' →
        (∀ n next, o = some (n, next) → i < next ∧ (input.lexeme i).isEnd = false) →
        (comparison input w).States ⟨t.table.finished (i, r) again o, t.failure⟩
          { t' with table := t'.table.insert i r (Memo.memoryOf again o) } := by
      rintro t _ o ⟨rfl, ht, hrunning', hresults'⟩ hend
      refine ⟨rfl, ht.finished (fun hagain => ?_) hend, ?_, fun e he => ?_⟩
      · rw [hagain] at hfind
        rw [hresults' _ mem_cons_self]
        exact horderly.fresh (i, r) hfind
      · rw [finished, hrunning', ← hrunning]
        rfl
      · have hne : (i, r) ≠ e := fun heq => hnot (heq ▸ hrunning ▸ he)
        rw [results_finished, if_neg hne, hresults' e (mem_cons_of_mem _ (hrunning ▸ he))]
        exact hresults e he
    have hpermits := horderly.permits (e := (i, r)) hfind
    change (comparison input (s.table.started (i, r))).Agree _ (p input i _)
      (q input i (forget s)) at hbody
    cases again <;> simp only [if_true, Bool.false_eq_true, if_false, hpermits] <;>
      generalize p input i _ = o at hbody ⊢ <;> generalize q input i (forget s) = o' at hbody ⊢ <;>
      cases hbody with
      | spared h => exact h.elim
      | error h => exact .error trivial
      | failed h => exact .failed (hstates h (by simp))
      | matched h hend =>
        refine .matched (hstates h ?_) hend
        rintro n next ⟨⟩
        exact hend.resolve_right fun hnone => Bool.noConfusion hnone.1

/-- No rule raises an alarm if only rules before its place, or above it, are being read. -/
theorem read_begins (alarm : Error) (depth : Nat)
    (habove : ∀ e ∈ w.running, e.1 < i ∨ e.1 = i ∧ r.rank < e.2.rank) :
    (comparison input w).Begins i (fun _ => true) (Rule.readWith (request alarm) depth r)
      (Rule.read depth r) := by
  induction depth generalizing r w i with
  | zero =>
    rw [Rule.read, Rule.readWith, Rule.readWith]
    exact request_begins habove fun _ _ _ _ _ => .error trivial
  | succ depth ih =>
    rw [Rule.read, Rule.readWith, Rule.readWith]
    refine request_begins habove fun w hw => ?_
    -- rules that are wanted here are lower, and rules that are wanted behind are behind
    refine Comparison.parser_begins (fun r' hr' => ih fun e he => ?_) (fun _ r' => ?_)
      (Grammar.production_descends r)
    · rcases mem_cons.mp he with rfl | he
      · exact .inr ⟨rfl, hr'⟩
      · exact (hw e he).imp_right fun h => ⟨h.1, Nat.lt_trans hr' h.2⟩
    · intro j s s' hj hs
      refine (ih (fun e he => ?_) s s' hs).mono fun _ k hk => ?_
      · rcases mem_cons.mp he with rfl | he
        · exact .inl hj
        · rcases hw e he with h | h
          · exact .inl (Nat.lt_trans h hj)
          · exact .inl (h.1 ▸ hj)
      · rcases hk with h | h
        · exact Nat.le_trans hj (Nat.le_of_lt h.1)
        · exact h.2 ▸ hj

end Watch

/-- **No run raises an alarm.** While a production is read at a place, its rule is not wanted there;
no production is read more than twice at a place, and none again where it has failed: whatever the
alarm, a run that stops with it where one of these is broken has the same outcome as one that does
not look. -/
theorem Start.root_watched (alarm : Error) (start : Start) (input : Input) (depth : Nat) :
    (start.root (Rule.readWith (Watch.request alarm) depth) input.lexemes.leading input 0
      ⟨Watch.initial, Failure.initial⟩).map (fun r => (r.1, Watch.forget r.2)) =
    start.root (Rule.read depth) input.lexemes.leading input 0 ⟨Memo.empty, Failure.initial⟩ := by
  have hrules : ∀ r, (Watch.comparison input .initial).Simulates 0
      (Rule.readWith (Watch.request alarm) depth r) (Rule.read depth r) :=
    fun r i s s' _ hs => (Watch.read_begins alarm depth (by simp [Watch.initial]) s s' hs).mono
      fun _ _ _ => Nat.zero_le _
  have hrun := ((Watch.comparison input .initial).congruence 0).root hrules start
    input.lexemes.leading 0 ⟨.initial, Failure.initial⟩ ⟨.empty, Failure.initial⟩ (Nat.le_refl _)
    ⟨rfl, Watch.orderly_initial input, rfl, fun _ _ => rfl⟩
  change (Watch.comparison input .initial).Agree _ (start.root _ _ input 0 _)
    (start.root _ _ input 0 _) at hrun
  generalize start.root (Rule.readWith (Watch.request alarm) depth) _ input 0 _ = o at hrun ⊢
  generalize start.root (Rule.read depth) _ input 0 _ = o' at hrun ⊢
  cases hrun with
  | spared h => exact h.elim
  | error => rfl
  | failed h => exact congrArg (fun s => Except.ok (none, s)) h.1.symm
  | matched h => exact congrArg (fun s => Except.ok (some _, s)) h.1.symm

end ShaderSource
