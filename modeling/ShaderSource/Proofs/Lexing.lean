import Mathlib.Data.List.Forall2
import ShaderSource.Proofs.Tiling
import ShaderSource.Proofs.Trivia

/-!
# Exchanging names in a source

A source is cut into the same lexemes again if names in it are exchanged for other names. What a
scan cuts off depends on the characters behind it, and behind a lexeme there may now stand another
name. So each part of the scan is shown to be local: what it decides stays the same if the
characters behind agree up to a point where a word begins on both sides, or both texts end.

Two things could go wrong, and are excluded by what the grammar accepts. A word right behind a
number could be taken for its suffix or its exponent, so behind a number a mark or the end has to
come. And a comment that is never closed reaches to the end of the text, so no lexeme may be
invalid.

## Main results

* `Scan.scan_standing`, `Scan.scan_eq_of_standing`: lexemes are what a scan yields just if each of
  them stands before the characters of those behind it.
* `Lexeme.StandsBefore.exchange`: a lexeme stands before other characters too, with another name.
* `Lexemes.ofString_exchange`: exchanging names in a source exchanges them in its lexemes.
-/

namespace ShaderSource

open List Scan

variable {c : Char} {p : Char → Bool} {x cs t y g s : List Char} {k : LexemeKind} {ls : List Lexeme}
  {text : String} {l : Lexeme} {ts : List Token}

namespace Scan

/-! ### Characters -/

theorem isAlpha_iff :
    c.isAlpha = true ↔ 65 ≤ c.toNat ∧ c.toNat ≤ 90 ∨ 97 ≤ c.toNat ∧ c.toNat ≤ 122 := by
  change (decide ('A'.val ≤ c.val ∧ c.val ≤ 'Z'.val) ||
    (decide ('a'.val ≤ c.val) && decide (c.val ≤ 'z'.val))) = true ↔ _
  simp only [Bool.or_eq_true, Bool.and_eq_true, decide_eq_true_eq, UInt32.le_iff_toNat_le]
  exact Iff.rfl

theorem isDigit_iff : c.isDigit = true ↔ 48 ≤ c.toNat ∧ c.toNat ≤ 57 := by
  change (decide ('0'.val ≤ c.val) && decide (c.val ≤ '9'.val)) = true ↔ _
  simp only [Bool.and_eq_true, decide_eq_true_eq, UInt32.le_iff_toNat_le]
  exact Iff.rfl

theorem not_isDigit_of_startsWord (h : startsWord c = true) : c.isDigit = false := by
  rw [Bool.eq_false_iff, Ne, isDigit_iff]
  simp only [startsWord, Bool.or_eq_true, beq_iff_eq, isAlpha_iff] at h
  rcases h with rfl | h
  · decide
  · omega

theorem isAlphanum_of_isDigit (h : c.isDigit = true) : c.isAlphanum = true := by
  rw [Char.isAlphanum, h, Bool.or_true]

theorem isAlphanum_of_isHexDigit (h : isHexDigit c = true) : c.isAlphanum = true := by
  simp only [isHexDigit, Bool.or_eq_true, Bool.and_eq_true, decide_eq_true_eq, Char.le_def,
    UInt32.le_iff_toNat_le] at h
  rw [Char.isAlphanum, Bool.or_eq_true, isAlpha_iff]
  rcases h with (hdigit | hlower) | hupper
  · exact .inr hdigit
  · have h' : 97 ≤ c.toNat ∧ c.toNat ≤ 102 := hlower
    omega
  · have h' : 65 ≤ c.toNat ∧ c.toNat ≤ 70 := hupper
    omega

/-! ### Runs -/

/-- No character satisfies `p` at the front. -/
def Stops (p : Char → Bool) (cs : List Char) : Prop :=
  ∀ c ∈ cs.head?, p c = false

theorem Stops.nil (p : Char → Bool) : Stops p [] :=
  fun _ hc => by cases hc

theorem run_append_of_stops (hx : Stops p x) (cs : List Char) : run p (cs ++ x) = run p cs := by
  induction cs with
  | nil =>
    cases x with
    | nil => rfl
    | cons c x => simp [run, hx c (by simp)]
  | cons c cs ih =>
    cases hc : p c with
    | false => simp [run, hc]
    | true => rw [cons_append, run_cons_of_pos hc, run_cons_of_pos hc, ih]

theorem run_le_length (p : Char → Bool) (cs : List Char) : run p cs ≤ cs.length := by
  exact (takeWhile_sublist p).length_le

theorem run_eq_length (h : ∀ c ∈ cs, p c = true) : run p cs = cs.length := by
  induction cs with
  | nil => rfl
  | cons c cs ih =>
    rw [forall_mem_cons] at h
    rw [run_cons_of_pos h.1, ih h.2, length_cons]

/-- A run that ends with `cs` holds all of it and cannot go on. -/
theorem of_run_append (h : run p (t ++ x) = t.length) : (∀ c ∈ t, p c = true) ∧ Stops p x := by
  induction t with
  | nil =>
    refine ⟨by simp, fun c hc => ?_⟩
    cases x with
    | nil => cases hc
    | cons d x =>
      obtain rfl : d = c := by simpa using hc
      cases hp : p d with
      | false => rfl
      | true =>
        rw [nil_append, run_cons_of_pos hp] at h
        cases h
  | cons c t ih =>
    cases hp : p c with
    | false => simp [run, hp] at h
    | true =>
      rw [cons_append, run_cons_of_pos hp, length_cons] at h
      obtain ⟨ht, hx⟩ := ih (Nat.succ.inj h)
      exact ⟨forall_mem_cons.mpr ⟨hp, ht⟩, hx⟩

/-! ### Parallel texts -/

/-- Two texts run parallel: they agree up to a point where a word begins in both, or both end. -/
inductive Parallel : List Char → List Char → Prop
  | nil : Parallel [] []
  | word {c d : Char} {cs ds : List Char} :
      startsWord c = true → startsWord d = true → Parallel (c :: cs) (d :: ds)
  | cons {cs ds : List Char} (c : Char) : Parallel cs ds → Parallel (c :: cs) (c :: ds)

theorem Parallel.append (h : Parallel x y) (cs : List Char) : Parallel (cs ++ x) (cs ++ y) := by
  induction cs with
  | nil => exact h
  | cons c cs ih => exact .cons c ih

theorem Parallel.eq_nil (h : Parallel [] y) : y = [] := by
  cases h
  rfl

/-- Where no word begins, parallel texts begin alike. -/
theorem Parallel.head_eq (h : Parallel x y) (hx : Stops startsWord x) : y.head? = x.head? := by
  cases h with
  | nil => rfl
  | @word c _ _ _ hc _ =>
    rw [hx c rfl] at hc
    cases hc
  | cons c _ => rfl

theorem Parallel.head?_eq_iff (h : Parallel x y) (hc : startsWord c = false) :
    y.head? = some c ↔ x.head? = some c := by
  cases h with
  | nil => rfl
  | word hd he =>
    simp only [head?_cons, Option.some.injEq]
    constructor
    · rintro rfl
      rw [hc] at he
      cases he
    · rintro rfl
      rw [hc] at hd
      cases hd
  | cons d _ => rfl

/-! ### Trivia -/

/-- Where no trivia stands, there is none in a parallel text. -/
theorem Parallel.trivia_eq_zero (h : Parallel x y) (hopen : opensComment x = false)
    (hx : triviaFrom .between x = 0) : triviaFrom .between y = 0 := by
  cases h with
  | nil => exact hx
  | @word _ d _ ds _ hd =>
    have hslash : d ≠ '/' := by
      rintro rfl
      revert hd
      decide
    have hspace : isSpace d = false := by
      cases hspace : isSpace d with
      | false => rfl
      | true =>
        simp only [isSpace, Bool.or_eq_true, beq_iff_eq] at hspace
        rcases hspace with ((((rfl | rfl) | rfl) | rfl) | rfl) | rfl <;> revert hd <;> decide
    simp [triviaFrom_of_ne_slash hslash, hspace]
  | @cons cs ds c h =>
    by_cases hslash : c = '/'
    · subst hslash
      have hline : cs.head? ≠ some '/' := by
        intro hhead
        obtain ⟨cs, rfl⟩ := head?_eq_some_iff.mp hhead
        rw [triviaFrom] at hx
        omega
      have hblock : cs.head? ≠ some '*' := by
        intro hhead
        obtain ⟨cs, rfl⟩ := head?_eq_some_iff.mp hhead
        cases hopen
      exact triviaFrom_slash (by rwa [ne_eq, h.head?_eq_iff (by decide)])
        (by rwa [ne_eq, h.head?_eq_iff (by decide)])
    · rw [triviaFrom_of_ne_slash hslash] at hx ⊢
      split at hx
      · omega
      · rw [if_neg ‹_›]

/-- Trivia that ends before a text ends before a parallel text as well. -/
theorem Parallel.trivia_append (h : Parallel x y) (hopen : opensComment x = false)
    (hx : trivia (g ++ x) = g.length) : trivia (g ++ y) = g.length := by
  have hrest := trivia_drop .between (g ++ x)
  rw [← trivia, hx, drop_left] at hrest
  refine trivia_append_congr hx (fun hnil => ?_) (h.trivia_eq_zero hopen hrest)
  subst hnil
  exact h.eq_nil

/-! ### Numbers -/

section Number

variable {x y : List Char}

theorem Stops.mono {q : Char → Bool} (h : Stops p x) (hqp : ∀ c, q c = true → p c = true) :
    Stops q x := by
  intro c hc
  have hp := h c hc
  cases hq : q c with
  | false => rfl
  | true =>
    rw [hqp c hq] at hp
    cases hp

/-- Before a text that stops, a character that does not stop is at the front only if it is so
without that text. -/
theorem Stops.head?_append {d : Char} (h : Stops p x) (hd : p d = true) (s : List Char) :
    (s ++ x).head? = some d ↔ s.head? = some d := by
  cases s with
  | cons c s => rfl
  | nil =>
    refine ⟨fun hx => ?_, fun hx => by cases hx⟩
    rw [h d hx] at hd
    cases hd

/-! A number that ends where a text begins ends there before any text that cannot go on with it. -/

theorem run_exchange (h : run p (s ++ x) ≤ s.length) (hy : Stops p y) :
    run p (s ++ y) = run p (s ++ x) := by
  rw [run_append_of_stops hy]
  induction s with
  | nil => exact (Nat.le_zero.mp h).symm
  | cons c s ih =>
    cases hc : p c with
    | false => simp [run, hc]
    | true =>
      rw [cons_append, run_cons_of_pos hc, length_cons] at h
      rw [cons_append, run_cons_of_pos hc, run_cons_of_pos hc, ih (Nat.le_of_succ_le_succ h)]

theorem fraction_exchange (h : fraction (s ++ x) ≤ s.length) (hy : Stops Char.isDigit y)
    (hpoint : s = [] → y.head? ≠ some '.') : fraction (s ++ y) = fraction (s ++ x) := by
  cases s with
  | nil =>
    refine Eq.trans ?_ (Nat.le_zero.mp h).symm
    cases y with
    | nil => rfl
    | cons c y =>
      have hc : c ≠ '.' := by simpa using hpoint rfl
      simp [fraction, hc]
  | cons c s =>
    by_cases hc : c = '.'
    · subst hc
      have hdigits : run Char.isDigit (s ++ x) ≤ s.length := by
        rw [cons_append, fraction, length_cons] at h
        omega
      rw [cons_append, cons_append, fraction, fraction, run_exchange hdigits hy]
    · simp [fraction, hc]

theorem exponent_of_ne {e : Char} (he : ¬(e = 'e' ∨ e = 'E')) (cs : List Char) :
    exponent (e :: cs) = 0 := by
  cases cs with
  | nil => rfl
  | cons d cs => rw [exponent, if_neg he]

theorem exponent_of_stops (hx : Stops Char.isAlphanum x) : exponent x = 0 := by
  cases x with
  | nil => rfl
  | cons c x =>
    refine exponent_of_ne ?_ x
    have hc : c.isAlphanum = false := hx c rfl
    rintro (rfl | rfl) <;> revert hc <;> decide

/-- A mark without digits does not count for the exponent. -/
theorem exponent_exchange (h : exponent (s ++ x) ≤ s.length) (hy : Stops Char.isAlphanum y)
    (hmark : ∀ e, s = [e] → ¬(e = 'e' ∨ e = 'E')) : exponent (s ++ y) = exponent (s ++ x) := by
  cases s with
  | nil => exact (exponent_of_stops hy).trans (Nat.le_zero.mp h).symm
  | cons e s =>
    by_cases he : e = 'e' ∨ e = 'E'
    swap
    · rw [cons_append, cons_append, exponent_of_ne he, exponent_of_ne he]
    cases s with
    | nil => exact absurd he (hmark e rfl)
    | cons d s =>
      have hrun : ∀ s, run Char.isDigit (s ++ x) ≤ s.length →
          run Char.isDigit (s ++ y) = run Char.isDigit (s ++ x) :=
        fun s hs => run_exchange hs (hy.mono fun _ => isAlphanum_of_isDigit)
      have hdigit := hrun (d :: s)
      have hsign := hrun s
      simp only [cons_append, exponent, if_pos he, length_cons] at h hdigit ⊢
      grind

theorem suffixed_cons (length : Nat) (isFloat : Bool) (c : Char) (cs : List Char) :
    suffixed length isFloat (c :: cs) =
      if c = 'f' ∨ c = 'F' then (.floatConstant, length + 1)
      else if c = 'l' ∧ cs.head? = some 'f' ∨ c = 'L' ∧ cs.head? = some 'F' then
        (.floatConstant, length + 2)
      else if isFloat then (.floatConstant, length)
      else if c = 'u' ∨ c = 'U' then (.intConstant, length + 1)
      else (.intConstant, length) := by
  unfold suffixed
  split
  · rename_i heq
    cases heq
    rfl
  · rename_i heq
    cases heq
    rfl
  · rename_i heq
    cases heq
    rfl
  · rename_i heq
    cases heq
    rfl
  · rename_i hf hF hlf hLF heq
    obtain ⟨rfl, rfl⟩ := cons.inj heq
    have hshort : ¬(c = 'f' ∨ c = 'F') := by
      rintro (rfl | rfl)
      · exact hf rfl
      · exact hF rfl
    have hlong : ¬(c = 'l' ∧ cs.head? = some 'f' ∨ c = 'L' ∧ cs.head? = some 'F') := by
      rintro (⟨rfl, hhead⟩ | ⟨rfl, hhead⟩)
      · obtain ⟨tail, rfl⟩ := head?_eq_some_iff.mp hhead
        exact hlf tail rfl rfl
      · obtain ⟨tail, rfl⟩ := head?_eq_some_iff.mp hhead
        exact hLF tail rfl rfl
    rw [if_neg hshort, if_neg hlong]
  · rename_i heq
    cases heq

theorem Stops.head?_ne {d : Char} (h : Stops p x) (hd : p d = true) : x.head? ≠ some d := by
  intro hhead
  rw [h d hhead] at hd
  cases hd

theorem suffixed_exchange {length : Nat} {isFloat : Bool}
    (h : (suffixed length isFloat (s ++ x)).2 ≤ length + s.length)
    (hy : Stops Char.isAlphanum y) :
    suffixed length isFloat (s ++ y) = suffixed length isFloat (s ++ x) := by
  have hf := hy.head?_ne (show 'f'.isAlphanum by decide)
  have hF := hy.head?_ne (show 'F'.isAlphanum by decide)
  cases s with
  | nil =>
    have hend : ∀ z, (suffixed length isFloat z).2 ≤ length →
        suffixed length isFloat z = suffixed length isFloat [] := by
      intro z hz
      cases z with
      | nil => rfl
      | cons c z =>
        rw [suffixed_cons] at hz ⊢
        cases isFloat <;> simp only [suffixed] <;> grind
    refine (hend y ?_).trans (hend x h).symm
    cases y with
    | nil => simp [suffixed]
    | cons c y =>
      have hne : ∀ d, d.isAlphanum = true → c ≠ d := by
        rintro d hd rfl
        exact hy.head?_ne hd rfl
      rw [suffixed_cons]
      cases isFloat <;> simp [hne 'f' (by decide), hne 'F' (by decide), hne 'l' (by decide),
        hne 'L' (by decide), hne 'u' (by decide), hne 'U' (by decide)]
  | cons c s =>
    rw [cons_append, suffixed_cons] at h
    rw [cons_append, cons_append, suffixed_cons, suffixed_cons]
    cases s with
    | cons d s => rfl
    | nil =>
      simp only [nil_append, length_cons, length_nil] at h ⊢
      grind

theorem point_le_decimal (cs : List Char) :
    run Char.isDigit cs + fraction (cs.drop (run Char.isDigit cs)) ≤ (decimal cs).2 :=
  Nat.le_trans (Nat.le_add_right _ _) (length_le_suffixed _ _ _)

/-- Only behind digits, a point goes on with the number. -/
theorem decimal_exchange (h : (decimal (t ++ x)).2 = t.length) (hy : Stops Char.isAlphanum y)
    (hpoint : (∀ c ∈ t, c.isDigit = true) → y.head? ≠ some '.') :
    decimal (t ++ y) = decimal (t ++ x) := by
  have hy' : Stops Char.isDigit y := hy.mono fun _ => isAlphanum_of_isDigit
  have hdrop : ∀ z n, n ≤ t.length → (t ++ z).drop n = t.drop n ++ z :=
    fun _ _ hn => drop_append_of_le_length hn
  unfold decimal at h ⊢
  simp only at h ⊢
  have hlength := Nat.le_trans (length_le_suffixed _ _ _) (Nat.le_of_eq h)
  have hwhole : run Char.isDigit (t ++ x) ≤ t.length := by omega
  have hdigits : t.drop (run Char.isDigit (t ++ x)) = [] → ∀ c ∈ t, c.isDigit = true :=
    fun hnil => (of_run_append (Nat.le_antisymm hwhole (drop_eq_nil_iff.mp hnil))).1
  rw [run_exchange hwhole hy']
  generalize run Char.isDigit (t ++ x) = whole at *
  rw [hdrop x whole hwhole] at h hlength ⊢
  rw [hdrop y whole hwhole]
  have hfraction : fraction (t.drop whole ++ x) ≤ (t.drop whole).length := by
    rw [length_drop]
    omega
  rw [fraction_exchange hfraction hy' fun hnil => hpoint (hdigits hnil)]
  generalize fraction (t.drop whole ++ x) = point at *
  rw [length_drop] at hfraction
  rw [hdrop x (whole + point) (by omega)] at h hlength ⊢
  rw [hdrop y (whole + point) (by omega)]
  have hpower : exponent (t.drop (whole + point) ++ x) ≤ (t.drop (whole + point)).length := by
    rw [length_drop]
    omega
  have hmark : ∀ e, t.drop (whole + point) = [e] → ¬(e = 'e' ∨ e = 'E') := by
    -- A mark without digits would be left over.
    intro e hs he
    have hone : t.length = whole + point + 1 := by
      have hlast := congrArg length hs
      rw [length_drop, length_singleton] at hlast
      omega
    have hnone : exponent (e :: x) = 0 := by
      rw [hs] at hpower
      cases x with
      | nil => rfl
      | cons d x =>
        have hdigit : d.isDigit = true → run Char.isDigit (d :: x) = run Char.isDigit x + 1 :=
          fun hd => run_cons_of_pos hd x
        simp only [cons_append, nil_append, exponent, if_pos he, length_cons,
          length_nil] at hpower ⊢
        grind
    rw [hs, cons_append, nil_append, hnone, Nat.add_zero, hdrop x _ (by omega), hs, cons_append,
      suffixed_cons, hone] at h
    rcases he with rfl | rfl <;> grind
  rw [exponent_exchange hpower hy hmark]
  generalize exponent (t.drop (whole + point) ++ x) = power at *
  rw [length_drop] at hpower
  rw [hdrop x (whole + point + power) (by omega)] at h ⊢
  rw [hdrop y (whole + point + power) (by omega)]
  refine suffixed_exchange ?_ hy
  rw [length_drop]
  omega

theorem hexadecimal_eq (cs : List Char) :
    hexadecimal cs = run isHexDigit cs +
      if (cs.drop (run isHexDigit cs)).head? = some 'u' ∨
        (cs.drop (run isHexDigit cs)).head? = some 'U' then 1 else 0 := by
  simp only [hexadecimal]
  generalize cs.drop (run isHexDigit cs) = rest
  split
  · simp
  · simp
  · rename_i hu hU
    rw [if_neg, Nat.add_zero]
    rintro (hhead | hhead)
    · obtain ⟨tail, rfl⟩ := head?_eq_some_iff.mp hhead
      exact hu tail rfl
    · obtain ⟨tail, rfl⟩ := head?_eq_some_iff.mp hhead
      exact hU tail rfl

theorem hexadecimal_exchange (h : hexadecimal (s ++ x) ≤ s.length) (hy : Stops Char.isAlphanum y) :
    hexadecimal (s ++ y) = hexadecimal (s ++ x) := by
  have hu := hy.head?_ne (show 'u'.isAlphanum by decide)
  have hU := hy.head?_ne (show 'U'.isAlphanum by decide)
  rw [hexadecimal_eq] at h
  have hdigits : run isHexDigit (s ++ x) ≤ s.length := Nat.le_of_add_right_le h
  rw [hexadecimal_eq, hexadecimal_eq,
    run_exchange hdigits (hy.mono fun _ => isAlphanum_of_isHexDigit)]
  generalize run isHexDigit (s ++ x) = digits at *
  rw [drop_append_of_le_length hdigits] at h ⊢
  rw [drop_append_of_le_length hdigits]
  cases hrest : s.drop digits with
  | cons c rest => rfl
  | nil =>
    have hlength : s.length ≤ digits := drop_eq_nil_iff.mp hrest
    rw [hrest] at h
    grind

theorem number_cons (c : Char) (cs : List Char) :
    number (c :: cs) =
      if c = '0' ∧ (cs.head? = some 'x' ∨ cs.head? = some 'X') then
        (.intConstant, 2 + hexadecimal cs.tail)
      else decimal (c :: cs) := by
  unfold number
  split
  · rename_i heq
    cases heq
    simp
  · rename_i heq
    cases heq
    simp
  · rename_i hx hX
    rw [if_neg]
    rintro ⟨rfl, hhead | hhead⟩
    · obtain ⟨tail, rfl⟩ := head?_eq_some_iff.mp hhead
      exact hx tail rfl
    · obtain ⟨tail, rfl⟩ := head?_eq_some_iff.mp hhead
      exact hX tail rfl

theorem number_exchange (h : (number (c :: t ++ x)).2 = (c :: t).length)
    (hy : Stops Char.isAlphanum y)
    (hpoint : (∀ d ∈ c :: t, d.isDigit = true) → y.head? ≠ some '.') :
    number (c :: t ++ y) = number (c :: t ++ x) := by
  rw [cons_append, number_cons] at h
  rw [cons_append, cons_append, number_cons, number_cons]
  cases t with
  | cons d t =>
    rw [cons_append, head?_cons, tail_cons] at h
    rw [cons_append, cons_append, head?_cons, head?_cons, tail_cons, tail_cons]
    by_cases hmark : c = '0' ∧ (some d = some 'x' ∨ some d = some 'X')
    · rw [if_pos hmark] at h
      have hdigits : hexadecimal (t ++ x) ≤ t.length := by
        simp only [length_cons] at h
        omega
      rw [if_pos hmark, if_pos hmark, hexadecimal_exchange hdigits hy]
    · rw [if_neg hmark] at h
      rw [if_neg hmark, if_neg hmark]
      exact decimal_exchange h hy hpoint
  | nil =>
    have hlower := hy.head?_ne (show 'x'.isAlphanum by decide)
    have hupper := hy.head?_ne (show 'X'.isAlphanum by decide)
    rw [nil_append] at h
    rw [nil_append, nil_append]
    by_cases hmark : c = '0' ∧ (x.head? = some 'x' ∨ x.head? = some 'X')
    · simp only [if_pos hmark, length_cons, length_nil] at h
      omega
    · rw [if_neg hmark] at h ⊢
      rw [if_neg (by simp [hlower, hupper])]
      exact decimal_exchange h hy hpoint

/-- Behind a number, only the next character matters. -/
theorem number_append_congr (hx : Stops Char.isAlphanum x) (hy : y.head? = x.head?)
    (h : number (c :: t ++ x) = (k, (c :: t).length)) :
    number (c :: t ++ y) = (k, (c :: t).length) := by
  have hlength : (number (c :: t ++ x)).2 = (c :: t).length := congrArg Prod.snd h
  refine (number_exchange hlength (by rwa [Stops, hy]) fun hdigits hpoint => ?_).trans h
  rw [hy] at hpoint
  obtain ⟨x, rfl⟩ := head?_eq_some_iff.mp hpoint
  -- The point would belong to the number.
  have hmark : ∀ d, d.isAlphanum = true → d.isDigit = false → (t ++ '.' :: x).head? ≠ some d := by
    intro d hd hdigit hhead
    have hmem := mem_of_mem_head? ((hx.head?_append hd t).mp hhead)
    rw [hdigits d (mem_cons_of_mem c hmem)] at hdigit
    cases hdigit
  rw [cons_append, number_cons, if_neg (by
    rintro ⟨-, hhead | hhead⟩
    · exact hmark 'x' (by decide) (by decide) hhead
    · exact hmark 'X' (by decide) (by decide) hhead)] at hlength
  have hle := point_le_decimal (c :: t ++ '.' :: x)
  rw [run_append_of_stops (hx.mono fun _ => isAlphanum_of_isDigit), run_eq_length hdigits,
    drop_left, fraction, cons_append, hlength] at hle
  omega

end Number

/-! ### Punctuation -/

/-- Marks have no characters of words in them. -/
theorem punctuation_wordless :
    ∀ p ∈ Vocabulary.punctuation, ∀ c ∈ p.toList,
      startsWord c = false ∧ continuesWord c = false := by
  have hall : (Vocabulary.punctuation.all fun p =>
      p.toList.all fun c => !startsWord c && !continuesWord c) = true := by
    decide +kernel
  simpa only [all_eq_true, Bool.and_eq_true, Bool.not_eq_true'] using hall

theorem Parallel.isPrefixOf_eq (h : Parallel x y) {p : List Char}
    (hp : ∀ c ∈ p, startsWord c = false) : p.isPrefixOf y = p.isPrefixOf x := by
  induction p generalizing x y with
  | nil => rfl
  | cons c p ih =>
    rw [forall_mem_cons] at hp
    cases h with
    | nil => rfl
    | word hd he =>
      have hne : ∀ d, startsWord d = true → (c == d) = false := by
        intro d hd
        rw [beq_eq_false_iff_ne]
        rintro rfl
        rw [hp.1] at hd
        cases hd
      rw [isPrefixOf, isPrefixOf, hne _ hd, hne _ he, Bool.false_and,
        Bool.false_and]
    | cons d h => rw [isPrefixOf, isPrefixOf, ih h hp.2]

/-- Parallel texts begin with the same mark. -/
theorem Parallel.mark?_eq (h : Parallel x y) : mark? y = mark? x := by
  have hfind : ∀ ps : List String, (∀ p ∈ ps, ∀ c ∈ p.toList, startsWord c = false) →
      (ps.find? fun p => p.toList.isPrefixOf y) = ps.find? fun p => p.toList.isPrefixOf x := by
    intro ps hps
    induction ps with
    | nil => rfl
    | cons p ps ih =>
      rw [forall_mem_cons] at hps
      rw [find?_cons, find?_cons, h.isPrefixOf_eq hps.1, ih hps.2]
  rw [mark?, mark?, hfind _ fun p hp c hc => (punctuation_wordless p hp c hc).1]

/-! ### Lexemes before other characters -/

theorem startsNumber_cons (c : Char) (cs : List Char) :
    startsNumber (c :: cs) = if c = '.' then cs.head?.any Char.isDigit else c.isDigit := by
  by_cases hc : c = '.'
  · subst hc
    cases cs with
    | nil => rfl
    | cons d cs => rfl
  · simp [startsNumber, hc]

theorem Parallel.startsNumber_eq (h : Parallel x y) (c : Char) :
    startsNumber (c :: y) = startsNumber (c :: x) := by
  have hheads : y.head?.any Char.isDigit = x.head?.any Char.isDigit := by
    cases h with
    | nil => rfl
    | word hd he =>
      rw [head?_cons, head?_cons, Option.any_some, Option.any_some,
        not_isDigit_of_startsWord hd, not_isDigit_of_startsWord he]
    | cons d _ => rfl
  rw [startsNumber_cons, startsNumber_cons, hheads]

theorem opensComment_cons (c : Char) (cs : List Char) :
    opensComment (c :: cs) = (c == '/' && cs.head? == some '*') := by
  by_cases hc : c = '/'
  · subst hc
    cases cs with
    | nil => rfl
    | cons d cs =>
      by_cases hd : d = '*'
      · subst hd
        rfl
      · simp [opensComment, hd]
  · simp [opensComment, hc]

/-- A preprocessor line ends before a line feed or at the end of the text. -/
theorem head_of_directive {b : Bool} (h : directive b (t ++ x) = t.length) :
    ∀ c ∈ x.head?, c = '\n' := by
  induction t generalizing b with
  | nil =>
    intro c hc
    obtain ⟨x, rfl⟩ := head?_eq_some_iff.mp hc
    rw [nil_append, directive, length_nil] at h
    split at h
    · assumption
    · split at h <;> omega
  | cons c t ih =>
    rw [cons_append, directive, length_cons] at h
    split at h
    · split at h
      · exact ih (b := false) (by omega)
      · omega
    · split at h
      · exact ih (b := b) (by omega)
      · exact ih (b := c == '\\') (by omega)

theorem directive_append {b : Bool} (hy : y.head? = x.head?) (h : directive b (t ++ x) = t.length) :
    directive b (t ++ y) = t.length := by
  induction t generalizing b with
  | nil =>
    cases x with
    | nil =>
      obtain rfl : y = [] := by simpa using hy
      exact h
    | cons c x =>
      obtain ⟨y, rfl⟩ := head?_eq_some_iff.mp hy
      obtain rfl := head_of_directive h c (by simp)
      cases b with
      | false => rfl
      | true =>
        simp only [nil_append, directive, if_true, length_nil] at h
        omega
  | cons c t ih =>
    rw [cons_append, directive, length_cons] at h ⊢
    split at h
    · rw [if_pos ‹_›]
      split at h
      · rw [if_pos ‹_›, ih (by omega)]
        omega
      · omega
    · rw [if_neg ‹_›]
      split at h
      · rw [if_pos ‹_›, ih (by omega)]
        omega
      · rw [if_neg ‹_›, ih (by omega)]
        omega

/-- A word is cut off where the next character does not continue it. -/
theorem lexeme_word (hc : startsWord c = true) (hcs : ∀ d ∈ cs, continuesWord d = true)
    (hx : Stops continuesWord x) :
    lexeme c (cs ++ x) = (wordKind (String.ofList (c :: cs)), (c :: cs).length) := by
  have hhash : c ≠ '#' := by
    rintro rfl
    revert hc
    decide
  have hrun : run continuesWord (c :: (cs ++ x)) = (c :: cs).length := by
    rw [← cons_append, run_append_of_stops hx, run_eq_length]
    exact forall_mem_cons.mpr ⟨continuesWord_of_startsWord hc, hcs⟩
  rw [lexeme, if_neg hhash, if_pos hc]
  simp only [hrun]
  rw [← cons_append, take_left]

theorem suffixed_kind (length : Nat) (isFloat : Bool) (cs : List Char) :
    (suffixed length isFloat cs).1 = .intConstant ∨
      (suffixed length isFloat cs).1 = .floatConstant := by
  unfold suffixed
  split <;> (try split) <;> (try split) <;> simp

end Scan

/-- Whether the lexeme is a number. -/
def LexemeKind.isNumber : LexemeKind → Bool
  | .intConstant | .floatConstant => true
  | _ => false

namespace Scan

theorem number_kind (cs : List Char) : (number cs).1.isNumber = true := by
  unfold number
  split
  · rfl
  · rfl
  · rw [decimal]
    rcases suffixed_kind _ _ _ with h | h <;> rw [h] <;> rfl

theorem Parallel.opensComment_eq (h : Parallel x y) (c : Char) :
    opensComment (c :: y) = opensComment (c :: x) := by
  have hheads : (y.head? == some '*') = (x.head? == some '*') := by
    rw [Bool.eq_iff_iff, beq_iff_eq, beq_iff_eq, h.head?_eq_iff (by decide)]
  rw [opensComment_cons, opensComment_cons, hheads]

theorem Stops.startsWord (h : Stops continuesWord x) : Stops Scan.startsWord x :=
  h.mono fun _ => continuesWord_of_startsWord

/-- What is cut off where a word begins is a word, and nothing behind it continues it. -/
theorem of_lexeme_word (hc : startsWord c = true) (h : lexeme c (cs ++ x) = (k, (c :: cs).length)) :
    (∀ d ∈ cs, continuesWord d = true) ∧ Stops continuesWord x ∧
      wordKind (String.ofList (c :: cs)) = k := by
  have hhash : c ≠ '#' := by
    rintro rfl
    revert hc
    decide
  have hrun : run continuesWord (c :: cs ++ x) = (c :: cs).length := by
    rw [lexeme, if_neg hhash, if_pos hc] at h
    exact (Prod.mk.inj h).2
  obtain ⟨hcs, hx⟩ := of_run_append hrun
  rw [forall_mem_cons] at hcs
  rw [lexeme_word hc hcs.2 hx] at h
  exact ⟨hcs.2, hx, (Prod.mk.inj h).1⟩

/-- A lexeme that is cut off before a text is cut off before a parallel text too. -/
theorem Parallel.lexeme_append (hxy : Parallel x y) (h : lexeme c (cs ++ x) = (k, (c :: cs).length))
    (hvalid : k ≠ .invalid) (hnumber : k.isNumber = true → Stops continuesWord x) :
    lexeme c (cs ++ y) = (k, (c :: cs).length) := by
  by_cases hhash : c = '#'
  · -- Behind a preprocessor line, a line feed stands in both texts.
    subst hhash
    rw [lexeme, if_pos rfl, Prod.mk.injEq, ← cons_append] at h ⊢
    refine ⟨h.1, directive_append (hxy.head_eq fun d hd => ?_) h.2⟩
    rw [head_of_directive h.2 d hd]
    decide
  · by_cases hword : startsWord c = true
    · -- Behind a word, no word begins in either text.
      obtain ⟨hcs, hx, -⟩ := of_lexeme_word hword h
      have hy : Stops continuesWord y := by rwa [Stops, hxy.head_eq hx.startsWord]
      rw [← h, lexeme_word hword hcs hx, lexeme_word hword hcs hy]
    · have hrest := hxy.append cs
      rw [lexeme, if_neg hhash, if_neg hword] at h ⊢
      rw [hrest.startsNumber_eq]
      split at h
      · rename_i hstarts
        have hx : Stops continuesWord x := hnumber (by
          rw [← (Prod.mk.inj h).1]
          exact number_kind _)
        rw [if_pos hstarts]
        refine number_append_congr (hx.mono fun d hd => ?_) (hxy.head_eq hx.startsWord) h
        rw [continuesWord, hd, Bool.or_true]
      · rename_i hstarts
        rw [if_neg hstarts, hrest.opensComment_eq]
        split at h
        · exact absurd (Prod.mk.inj h).1.symm hvalid
        · rename_i hopen
          rw [if_neg hopen, (Parallel.cons c hrest).mark?_eq]
          exact h

/-! ### Lexemes are not longer than what is left -/

theorem directive_le_length (b : Bool) (cs : List Char) : directive b cs ≤ cs.length := by
  induction cs generalizing b with
  | nil => simp [directive]
  | cons c cs ih =>
    have hfalse := ih false
    have hsame := ih b
    have hmark := ih (c == '\\')
    rw [directive, length_cons]
    split
    · split <;> omega
    · split <;> omega

theorem fraction_le_length (cs : List Char) : fraction cs ≤ cs.length := by
  cases cs with
  | nil => simp [fraction]
  | cons c cs =>
    have hdigits := run_le_length Char.isDigit cs
    by_cases hc : c = '.'
    · subst hc
      rw [fraction, length_cons]
      omega
    · simp [fraction, hc]

theorem exponent_le_length (cs : List Char) : exponent cs ≤ cs.length := by
  cases cs with
  | nil => simp [exponent]
  | cons e cs =>
    cases cs with
    | nil => simp [exponent]
    | cons s cs =>
      have hplain := run_le_length Char.isDigit (s :: cs)
      have hsigned := run_le_length Char.isDigit cs
      simp only [exponent, length_cons] at hplain ⊢
      split
      · split
        · omega
        · split
          · split <;> omega
          · omega
      · omega

theorem suffixed_le_length (length : Nat) (isFloat : Bool) (cs : List Char) :
    (suffixed length isFloat cs).2 ≤ length + cs.length := by
  cases cs with
  | nil => simp [suffixed]
  | cons c cs =>
    rw [suffixed_cons]
    split
    · simp
    · split
      · rename_i hlong
        have hne : cs ≠ [] := by
          rintro rfl
          simp at hlong
        have hpos := length_pos_iff.mpr hne
        simp only [length_cons]
        omega
      · split
        · simp
        · split <;> simp

theorem decimal_le_length (cs : List Char) : (decimal cs).2 ≤ cs.length := by
  have hwhole := run_le_length Char.isDigit cs
  have hpoint := fraction_le_length (cs.drop (run Char.isDigit cs))
  have hpower := exponent_le_length
    (cs.drop (run Char.isDigit cs + fraction (cs.drop (run Char.isDigit cs))))
  refine Nat.le_trans (suffixed_le_length _ _ _) ?_
  simp only [length_drop] at hpoint hpower ⊢
  omega

theorem number_le_length (cs : List Char) : (number cs).2 ≤ cs.length := by
  cases cs with
  | nil => exact decimal_le_length []
  | cons c cs =>
    rw [number_cons]
    split
    · rename_i hhex
      have hdigits := run_le_length isHexDigit cs.tail
      have hne : cs ≠ [] := by
        rintro rfl
        simp at hhex
      have hpos := length_pos_iff.mpr hne
      simp only [hexadecimal_eq, length_cons]
      rw [length_tail] at hdigits
      split
      · rename_i hmark
        have hmore : cs.tail.drop (run isHexDigit cs.tail) ≠ [] := by
          intro hnil
          simp [hnil] at hmark
        have hrest := length_pos_iff.mpr hmore
        rw [length_drop, length_tail] at hrest
        omega
      · omega
    · exact decimal_le_length _

theorem lexeme_le_length (c : Char) (cs : List Char) : (lexeme c cs).2 ≤ cs.length + 1 := by
  unfold lexeme
  split
  · exact directive_le_length _ _
  · split
    · exact run_le_length _ _
    · split
      · exact number_le_length _
      · split
        · exact Nat.le_refl _
        · unfold mark?
          cases hmark : Vocabulary.punctuation.find? fun p => p.toList.isPrefixOf (c :: cs) with
          | none => simp
          | some p =>
            have hfits : p.toList.isPrefixOf (c :: cs) = true := by
              simpa using find?_some hmark
            have hle := (List.isPrefixOf_iff_prefix.mp hfits).length_le
            simpa [String.length_toList] using hle

end Scan

/-! ### Lexemes that stand before others -/

/-- A scan that comes to the lexeme before the given characters cuts it off. -/
def Lexeme.StandsBefore (l : Lexeme) (rest : List Char) : Prop :=
  ∃ c cs, l.text.toList = c :: cs ∧
    Scan.lexeme c (cs ++ (l.trivia.toList ++ rest)) = (l.kind, (c :: cs).length) ∧
    Scan.trivia (l.trivia.toList ++ rest) = l.trivia.toList.length

namespace Scan

/-- Each lexeme of the list stands before the characters of those behind it. -/
def Standing : List Lexeme → Prop
  | [] => True
  | l :: ls => l.StandsBefore (ls.flatMap chars) ∧ Standing ls

/-- The lexemes that a scan yields stand before each other. -/
theorem scan_standing (place : Position) (settled : Nat) (cs : List Char) :
    Standing (scan place settled cs) := by
  induction cs generalizing place settled with
  | nil => trivial
  | cons c cs ih =>
    cases settled with
    | succ settled => exact ih place settled
    | zero =>
      have hpos := lexeme_length_pos c cs
      have hle := lexeme_le_length c cs
      obtain ⟨kind, n, hcut⟩ : ∃ kind n, lexeme c cs = (kind, n + 1) :=
        ⟨_, _, Prod.ext rfl (Nat.sub_add_cancel hpos).symm⟩
      simp only [hcut] at hle
      simp only [scan, hcut, Standing]
      refine ⟨?_, ih _ _⟩
      have htrivia := triviaFrom_le_length .between (cs.drop n)
      have hrest : (cs.drop n).take (trivia (cs.drop n)) ++
          cs.drop (n + 1 + trivia (cs.drop n) - 1) = cs.drop n := by
        rw [show n + 1 + trivia (cs.drop n) - 1 = n + trivia (cs.drop n) by omega,
          ← drop_drop, take_append_drop]
      rw [scan_chars]
      refine ⟨c, cs.take n, String.toList_ofList, ?_, ?_⟩
      · simp only [drop_succ_cons, String.toList_ofList, hrest, take_append_drop,
          hcut, length_cons, length_take]
        rw [Nat.min_eq_left (by omega)]
      · simp only [drop_succ_cons, String.toList_ofList, hrest, length_take]
        exact (Nat.min_eq_left htrivia).symm

theorem scan_settled (place : Position) (settled : Nat) (cs : List Char) :
    scan place settled cs = scan place 0 (cs.drop settled) := by
  induction cs generalizing settled with
  | nil => cases settled <;> rfl
  | cons c cs ih =>
    cases settled with
    | zero => rfl
    | succ settled => rw [scan, ih, drop_succ_cons]

/-- Two lexemes are the same but for their places. -/
def SameText (l m : Lexeme) : Prop :=
  m.kind = l.kind ∧ m.token = l.token

/-- Lexemes that stand before each other are what a scan of their characters yields. -/
theorem scan_eq_of_standing (h : Standing ls) (place : Position) :
    List.Forall₂ SameText ls (scan place 0 (ls.flatMap chars)) := by
  induction ls generalizing place with
  | nil => exact .nil
  | cons l ls ih =>
    obtain ⟨⟨c, cs, htext, hlexeme, htrivia⟩, hstanding⟩ := h
    have hchars : (l :: ls).flatMap chars =
        c :: (cs ++ (l.trivia.toList ++ ls.flatMap chars)) := by
      simp [chars, htext]
    have hdrop : (cs ++ (l.trivia.toList ++ ls.flatMap chars)).drop
        ((c :: cs).length + l.trivia.toList.length - 1) = ls.flatMap chars := by
      rw [length_cons, show cs.length + 1 + l.trivia.toList.length - 1 =
        (cs ++ l.trivia.toList).length by rw [length_append]; omega,
        ← append_assoc, drop_left]
    rw [hchars, scan]
    simp only [hlexeme, ← cons_append, take_left, drop_left, htrivia]
    rw [scan_settled, hdrop]
    refine .cons ⟨rfl, ?_⟩ (ih hstanding _)
    simp [Lexeme.token, ← htext]

/-! ### Exchanging names -/

/-- Whether the characters are a word. -/
def isWord : List Char → Bool
  | [] => false
  | c :: cs => startsWord c && cs.all continuesWord

/-- Whether the text is a name: a letter or an underscore, then letters, digits and underscores,
and neither a reserved word nor a truth value. -/
def isIdentifier (text : String) : Bool :=
  isWord text.toList && wordKind text == .identifier

theorem isIdentifier_iff :
    isIdentifier text = true ↔ ∃ c cs, text.toList = c :: cs ∧ startsWord c = true ∧
      (∀ d ∈ cs, continuesWord d = true) ∧ wordKind text = .identifier := by
  rw [isIdentifier]
  cases text.toList with
  | nil => simp [isWord]
  | cons c cs => simp [isWord, and_assoc]

theorem not_opensComment {n : Nat} (h : lexeme c cs = (k, n)) (hvalid : k ≠ .invalid) :
    opensComment (c :: cs) = false := by
  cases hopen : opensComment (c :: cs) with
  | false => rfl
  | true =>
    have hslash : c = '/' := by
      rw [opensComment_cons, Bool.and_eq_true, beq_iff_eq] at hopen
      exact hopen.1
    subst hslash
    rw [lexeme, if_neg (by decide), if_neg (by decide),
      if_neg (by simp [startsNumber_cons]), if_pos hopen] at h
    exact absurd (Prod.mk.inj h).1.symm hvalid

/-- A name begins as a word, and nothing behind it continues it. -/
theorem of_lexeme_identifier (h : lexeme c (cs ++ x) = (.identifier, (c :: cs).length)) :
    startsWord c = true ∧ Stops continuesWord x := by
  by_cases hword : startsWord c = true
  · exact ⟨hword, (of_lexeme_word hword h).2.1⟩
  · by_cases hhash : c = '#'
    · rw [lexeme, if_pos hhash] at h
      cases (Prod.mk.inj h).1
    · rw [lexeme, if_neg hhash, if_neg hword] at h
      split at h
      · have hkind := number_kind (c :: (cs ++ x))
        rw [h] at hkind
        cases hkind
      · split at h
        · cases (Prod.mk.inj h).1
        · split at h <;> cases (Prod.mk.inj h).1

/-- A lexeme is a name if its text is one. -/
theorem identifier_iff_of_standsBefore (h : l.StandsBefore x) :
    l.kind = .identifier ↔ isIdentifier l.text = true := by
  obtain ⟨c, cs, htext, hcut, -⟩ := h
  have hofList : String.ofList (c :: cs) = l.text := by rw [← htext, String.ofList_toList]
  constructor
  · intro hkind
    rw [hkind] at hcut
    have hc := (of_lexeme_identifier hcut).1
    obtain ⟨hcs, -, hword⟩ := of_lexeme_word hc hcut
    exact isIdentifier_iff.mpr ⟨c, cs, htext, hc, hcs, hofList ▸ hword⟩
  · intro hname
    obtain ⟨d, ds, htext', hd, -, hword⟩ := isIdentifier_iff.mp hname
    obtain ⟨rfl, rfl⟩ := cons.inj (htext.symm.trans htext')
    rw [← (of_lexeme_word hd hcut).2.2, hofList, hword]

/-- Each lexeme of those that stand before each other stands before something. -/
theorem Standing.standsBefore (h : Standing ls) (hl : l ∈ ls) : ∃ rest, l.StandsBefore rest := by
  induction ls with
  | nil => cases hl
  | cons m ls ih =>
    rcases mem_cons.mp hl with rfl | hl
    · exact ⟨_, h.1⟩
    · exact ih h.2 hl

/-- A mark does not begin with a character of a word. -/
theorem of_lexeme_punctuation {n : Nat} (h : lexeme c cs = (.punctuation, n)) :
    continuesWord c = false := by
  by_cases hhash : c = '#'
  · rw [lexeme, if_pos hhash] at h
    cases (Prod.mk.inj h).1
  · by_cases hword : startsWord c = true
    · rw [lexeme, if_neg hhash, if_pos hword] at h
      have hne : ∀ word, wordKind word ≠ .punctuation := by
        intro word
        unfold wordKind
        split
        · simp
        · split <;> simp
      exact absurd (Prod.mk.inj h).1 (hne _)
    · rw [lexeme, if_neg hhash, if_neg hword] at h
      split at h
      · have hkind := number_kind (c :: cs)
        rw [h] at hkind
        cases hkind
      · split at h
        · cases (Prod.mk.inj h).1
        · unfold mark? at h
          cases hmark : Vocabulary.punctuation.find? fun p => p.toList.isPrefixOf (c :: cs) with
          | none =>
            rw [hmark] at h
            cases (Prod.mk.inj h).1
          | some p =>
            have hp := mem_of_find?_eq_some hmark
            have hfits : p.toList.isPrefixOf (c :: cs) = true := by
              simpa using find?_some hmark
            cases hchars : p.toList with
            | nil =>
              have hpos := punctuation_length_pos hp
              rw [← String.length_toList, hchars] at hpos
              cases hpos
            | cons d ds =>
              rw [hchars, isPrefixOf, Bool.and_eq_true, beq_iff_eq] at hfits
              obtain ⟨rfl, -⟩ := hfits
              exact (punctuation_wordless p hp d (by simp [hchars])).2

/-- Where trivia stands, no word goes on. -/
theorem stops_of_trivia (h : trivia (g ++ x) = g.length) (hg : g ≠ []) :
    Stops continuesWord (g ++ x) := by
  cases g with
  | nil => exact absurd rfl hg
  | cons c g =>
    rintro d hd
    obtain rfl : c = d := by simpa using hd
    by_cases hslash : c = '/'
    · subst hslash
      decide
    · rw [trivia, cons_append, triviaFrom_of_ne_slash hslash, length_cons] at h
      split at h
      · rename_i hspace
        simp only [isSpace, Bool.or_eq_true, beq_iff_eq] at hspace
        rcases hspace with ((((rfl | rfl) | rfl) | rfl) | rfl) | rfl <;> decide
      · omega

end Scan

namespace Lexeme

/-- The token can come into the place of the lexeme: its trivia are the same, and so is its text
unless both are names. -/
def Admits (l : Lexeme) (t : Token) : Prop :=
  t.trivia = l.trivia ∧
    (t.text = l.text ∨ l.kind = .identifier ∧ Scan.isIdentifier t.text = true)

/-- The lexeme with another token. -/
def withToken (l : Lexeme) (t : Token) : Lexeme :=
  { l with text := t.text, trivia := t.trivia }

/-- A lexeme stands before other characters too, with another name. -/
theorem StandsBefore.exchange {t : Token} (h : l.StandsBefore x) (ht : l.Admits t)
    (hvalid : l.kind ≠ .invalid) (hopen : Scan.opensComment x = false)
    (hnumber : l.kind.isNumber = true → Scan.Stops Scan.continuesWord x) (hxy : Scan.Parallel x y) :
    (l.withToken t).StandsBefore y := by
  obtain ⟨c, cs, htext, hcut, htrivia⟩ := h
  obtain ⟨htrivia', hsame | ⟨hkind, hname⟩⟩ := ht
  all_goals
    have hgap := hxy.trivia_append hopen htrivia
    have hbehind := hxy.append l.trivia.toList
  · refine ⟨c, cs, ?_, ?_, ?_⟩
    · rw [withToken, hsame, htext]
    · simp only [withToken, htrivia']
      refine hbehind.lexeme_append hcut hvalid fun hk => ?_
      by_cases hgap : l.trivia.toList = []
      · rw [hgap]
        exact hnumber hk
      · exact stops_of_trivia htrivia hgap
    · simp only [withToken, htrivia']
      exact hgap
  · obtain ⟨d, ds, hdtext, hd, hds, hword⟩ := isIdentifier_iff.mp hname
    rw [hkind] at hcut
    obtain ⟨-, hx⟩ := of_lexeme_identifier hcut
    have hy : Stops continuesWord (l.trivia.toList ++ y) := by
      rwa [Stops, hbehind.head_eq hx.startsWord]
    refine ⟨d, ds, hdtext, ?_, ?_⟩
    · simp only [withToken, htrivia']
      rw [lexeme_word hd hds hy, ← hdtext, String.ofList_toList, hword, hkind]
    · simp only [withToken, htrivia']
      exact hgap

end Lexeme

namespace Scan

/-- The lexemes are all valid, and behind each number comes a mark or nothing. -/
structure Separated (ls : List Lexeme) : Prop where
  valid : ∀ l ∈ ls, l.kind ≠ .invalid
  numbers : ∀ i l m, ls[i]? = some l → ls[i + 1]? = some m → l.kind.isNumber = true →
    m.kind = .punctuation

theorem Standing.not_opensComment (h : Standing ls) (hvalid : ∀ l ∈ ls, l.kind ≠ .invalid) :
    opensComment (ls.flatMap chars) = false := by
  cases ls with
  | nil => rfl
  | cons l ls =>
    obtain ⟨⟨c, cs, htext, hcut, -⟩, -⟩ := h
    have hopen := not_opensComment hcut (hvalid l mem_cons_self)
    simpa [chars, htext] using hopen

/-- Exchanging names keeps lexemes standing before each other, and keeps their text parallel. -/
theorem Standing.exchange (h : Standing ls) (hsep : Separated ls)
    (hts : List.Forall₂ Lexeme.Admits ls ts) : Standing (List.zipWith Lexeme.withToken ls ts) ∧
      Parallel (ls.flatMap chars) ((List.zipWith Lexeme.withToken ls ts).flatMap chars) := by
  induction hts with
  | nil => exact ⟨trivial, .nil⟩
  | @cons l t ls ts ht hts ih =>
    obtain ⟨hl, hls⟩ := h
    obtain ⟨hvalid, hnumbers⟩ := hsep
    rw [forall_mem_cons] at hvalid
    obtain ⟨hstanding, hparallel⟩ := ih hls ⟨hvalid.2, fun i => hnumbers (i + 1)⟩
    have hnumber : l.kind.isNumber = true → Stops continuesWord (ls.flatMap chars) := by
      intro hk
      cases ls with
      | nil => simp [Stops]
      | cons m ls =>
        obtain ⟨⟨c, cs, htext, hcut, -⟩, -⟩ := hls
        rw [hnumbers 0 l m rfl rfl hk] at hcut
        simp [Stops, chars, htext, of_lexeme_punctuation hcut]
    refine ⟨⟨hl.exchange ht hvalid.1 (hls.not_opensComment hvalid.2) hnumber hparallel,
      hstanding⟩, ?_⟩
    simp only [zipWith_cons_cons, flatMap_cons, chars, Lexeme.withToken, ht.1]
    rcases ht.2 with hsame | ⟨hkind, hname⟩
    · rw [hsame]
      exact hparallel.append _
    · obtain ⟨c, cs, htext, hcut, -⟩ := hl
      rw [hkind] at hcut
      obtain ⟨d, ds, hdtext, hd, -⟩ := isIdentifier_iff.mp hname
      rw [htext, hdtext]
      exact .word (of_lexeme_identifier hcut).1 hd

end Scan

/-- The characters of lexemes with other tokens are those of the tokens. -/
theorem Scan.toList_join_source (h : List.Forall₂ Lexeme.Admits ls ts) :
    (String.join (ts.map Token.source)).toList =
      (List.zipWith Lexeme.withToken ls ts).flatMap Scan.chars := by
  induction h with
  | nil => rfl
  | cons _ _ ih =>
    rw [map_cons, String.join_cons, String.toList_append, ih, Token.source,
      String.toList_append]
    rfl

/-- The lexemes of a source stand before each other. -/
theorem Lexemes.ofString_standing (text : String) :
    Scan.Standing (ofString text).body.toList := by
  simpa [ofString] using scan_standing _ 0 _

/-- A lexeme of a source is a name if its text is one. -/
theorem Lexemes.identifier_iff (hl : l ∈ (ofString text).body.toList) :
    l.kind = .identifier ↔ Scan.isIdentifier l.text = true := by
  obtain ⟨rest, h⟩ := (ofString_standing text).standsBefore hl
  exact identifier_iff_of_standsBefore h

/-- **Exchanging names in a source exchanges them in its lexemes**: the source is cut at the same
places, and nothing else changes. -/
theorem Lexemes.ofString_exchange (hsep : Scan.Separated (ofString text).body.toList)
    (hts : List.Forall₂ Lexeme.Admits (ofString text).body.toList ts) :
    (ofString ((ofString text).leading ++ String.join (ts.map Token.source))).leading =
        (ofString text).leading ∧
      List.Forall₂ Scan.SameText
        (List.zipWith Lexeme.withToken (ofString text).body.toList ts)
        (ofString ((ofString text).leading ++ String.join (ts.map Token.source))).body.toList := by
  have hchars := toList_join_source hts
  have hstanding := ofString_standing text
  have hold : (ofString text).body.toList.flatMap chars =
      text.toList.drop (trivia text.toList) := by
    simpa [ofString] using scan_chars _ 0 _
  have hleading : (ofString text).leading.toList =
      text.toList.take (trivia text.toList) := by simp [ofString]
  obtain ⟨hnew, hparallel⟩ := hstanding.exchange hsep hts
  have hgap : trivia ((ofString text).leading.toList ++
      (ofString text).body.toList.flatMap chars) =
      (ofString text).leading.toList.length := by
    rw [hold, hleading, take_append_drop, length_take, Nat.min_eq_left]
    exact triviaFrom_le_length _ _
  have hgap' := hparallel.trivia_append (hstanding.not_opensComment hsep.valid) hgap
  generalize zipWith Lexeme.withToken (ofString text).body.toList ts = ls at *
  generalize (ofString text).leading = leading at *
  generalize hsource : leading ++ String.join (ts.map Token.source) = source
  have hsource : source.toList = leading.toList ++ ls.flatMap chars := by
    rw [← hsource, String.toList_append, hchars]
  have htrivia : trivia source.toList = leading.toList.length := by
    rw [hsource]
    exact hgap'
  constructor
  · simp only [ofString, htrivia]
    rw [hsource, take_left, String.ofList_toList]
  · simp only [ofString, htrivia]
    rw [hsource, drop_left]
    exact scan_eq_of_standing hnew _

end ShaderSource
