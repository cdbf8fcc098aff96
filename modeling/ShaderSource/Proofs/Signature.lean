import ShaderSource.Proofs.Lexing
import ShaderSource.Scope.Signature

/-!
# Signatures and their keys

The functions of a name are told apart by the texts of their signatures. Such a text says less than
the signature: a comma in it may stand between two parameters or inside a dimension of one. But the
text of a call has no dimension in it, and without dimensions types are words, so that the commas
are those between parameters. So a function that a call finds by its text has as many parameters as
the call has arguments, and in all other cases the number of parameters is compared as such.

## Main results

* `Signature.eq_of_key_call`: a signature with the text of a call is that of the call.
* `Signature.agrees_call_iff`: a signature agrees with a call exactly if the number of parameters is
  that of the arguments.
* `Signature.agreement`: what agreement is, for types of any texts without the marks of keys.
-/

namespace ShaderSource

open List

variable {x : String} {c : Char} {s : Signature} {n : Nat}

namespace Signature

/-! ### Texts of types -/

/-- The text is made of characters of words. -/
def IsWordText (x : String) : Prop :=
  ∀ c ∈ x.toList, Scan.continuesWord c = true

/-- The text is that of a type: a word, and dimensions behind it. -/
def IsTypeText (x : String) : Prop :=
  ∃ base dimensions, x.toList = base ++ dimensions ∧
    (∀ c ∈ base, Scan.continuesWord c = true) ∧ ∀ c ∈ dimensions.head?, c = '['

theorem IsWordText.of_all (h : x.toList.all Scan.continuesWord = true) : IsWordText x :=
  all_eq_true.mp h

theorem IsWordText.isTypeText (h : IsWordText x) : IsTypeText x :=
  ⟨x.toList, [], (append_nil _).symm, h, by simp⟩

/-- Without dimensions it is a word. -/
theorem IsTypeText.isWordText (h : IsTypeText x) (hdimension : '[' ∉ x.toList) : IsWordText x := by
  obtain ⟨base, dimensions, hx, hbase, hdimensions⟩ := h
  cases dimensions with
  | nil =>
    rw [append_nil] at hx
    rw [IsWordText, hx]
    exact hbase
  | cons c cs =>
    obtain rfl := hdimensions c rfl
    exact absurd (hx ▸ mem_append_right _ mem_cons_self) hdimension

/-- A signature as declarations and calls have them. -/
structure WellFormed (s : Signature) : Prop where
  parameters : s.parameters ≠ []
  types : ∀ x ∈ s.types, IsTypeText x

/-! ### Keys -/

theorem IsWordText.not_mem (h : IsWordText x) (hc : Scan.continuesWord c = false) :
    c ∉ x.toList := by
  intro hmem
  rw [h c hmem] at hc
  cases hc

/-- What stands before the first of a mark. -/
theorem append_mark_inj {y : String} (hx : c ∉ x.toList) (hy : c ∉ y.toList) {l r : List Char}
    (h : x.toList ++ c :: l = y.toList ++ c :: r) : x = y ∧ l = r := by
  rw [← String.toList_inj]
  rcases append_eq_append_iff.mp h with ⟨t, ht, hrest⟩ | ⟨t, ht, hrest⟩
  · cases t with
    | nil => simp_all
    | cons d t => exact absurd (by simp_all) hy
  · cases t with
    | nil => simp_all
    | cons d t => exact absurd (by simp_all) hx

/-- Lists of texts without commas are told apart by what they make together. -/
theorem intercalate_inj {xs ys : List String} (hxs : ∀ x ∈ xs, ',' ∉ x.toList)
    (hys : ∀ y ∈ ys, ',' ∉ y.toList) (hne : xs ≠ []) (hne' : ys ≠ [])
    (h : ", ".intercalate xs = ", ".intercalate ys) : xs = ys := by
  induction xs generalizing ys with
  | nil => exact absurd rfl hne
  | cons x xs ih =>
    obtain ⟨y, ys, rfl⟩ := exists_cons_of_ne_nil hne'
    have hx := hxs x mem_cons_self
    have hy := hys y mem_cons_self
    cases xs with
    | nil =>
      cases ys with
      | nil => simpa using h
      | cons y' ys =>
        rw [String.intercalate_singleton, String.intercalate_cons_cons] at h
        exact absurd (by simp [h]) hx
    | cons x' xs =>
      cases ys with
      | nil =>
        rw [String.intercalate_singleton, String.intercalate_cons_cons] at h
        exact absurd (by simp [← h]) hy
      | cons y' ys =>
        rw [String.intercalate_cons_cons, String.intercalate_cons_cons] at h
        have hchars := congrArg String.toList h
        simp only [String.toList_append, append_assoc] at hchars
        obtain ⟨rfl, hrest⟩ := append_mark_inj hx hy hchars
        have htail := String.toList_inj.mp (cons.inj hrest).2
        rw [ih (forall_mem_cons.mp hxs).2 (forall_mem_cons.mp hys).2
          (cons_ne_nil _ _) (cons_ne_nil _ _) htail]

theorem toList_key (s : Signature) :
    s.key.toList = s.result.toList ++ ':' :: (' ' :: (", ".intercalate s.parameters).toList) := by
  simp [key]

/-- The text has none of the marks in it that stand between the types of a key. -/
def IsUnmarked (x : String) : Prop :=
  ',' ∉ x.toList ∧ ':' ∉ x.toList

theorem IsWordText.isUnmarked (h : IsWordText x) : IsUnmarked x :=
  ⟨h.not_mem (by decide), h.not_mem (by decide)⟩

/-- Signatures of unmarked texts are told apart by their keys. -/
theorem eq_of_key {s' : Signature} (hs : ∀ x ∈ s.types, IsUnmarked x)
    (hs' : ∀ x ∈ s'.types, IsUnmarked x) (hne : s.parameters ≠ []) (hne' : s'.parameters ≠ [])
    (h : s.key = s'.key) : s = s' := by
  rw [types, forall_mem_cons] at hs hs'
  have hchars := congrArg String.toList h
  rw [toList_key, toList_key] at hchars
  obtain ⟨hresult, hrest⟩ := append_mark_inj hs.1.2 hs'.1.2 hchars
  have hparameters := intercalate_inj (fun x hx => (hs.2 x hx).1) (fun x hx => (hs'.2 x hx).1)
    hne hne' (String.toList_inj.mp (cons.inj hrest).2)
  obtain ⟨result, parameters⟩ := s
  exact congrArg₂ Signature.mk hresult hparameters

theorem mem_intercalate_of_mem {α : Type} {separator l : List α} {ls : List (List α)} (hl : l ∈ ls)
    {a : α} (ha : a ∈ l) : a ∈ separator.intercalate ls := by
  induction ls with
  | nil => cases hl
  | cons m ms ih =>
    rcases mem_cons.mp hl with rfl | hl
    · cases ms <;> simp [ha]
    · cases ms with
      | nil => cases hl
      | cons m' ms => simpa using .inr (.inr (by simpa using ih hl))

/-- The characters of the types are in the key. -/
theorem mem_key (hx : x ∈ s.types) (hc : c ∈ x.toList) : c ∈ s.key.toList := by
  rw [toList_key]
  rcases mem_cons.mp hx with rfl | hx
  · exact mem_append_left _ hc
  · refine mem_append_right _ (mem_cons_of_mem _ (mem_cons_of_mem _ ?_))
    rw [String.toList_intercalate]
    exact mem_intercalate_of_mem (mem_map_of_mem hx) hc

/-! ### Calls -/

theorem types_call (n : Nat) : ∀ x ∈ (call n).types, x = openType ∨ x = void := by
  intro x hx
  simp only [types, call, mem_cons] at hx
  rcases hx with rfl | hx
  · exact .inl rfl
  · split at hx
    · exact .inr (mem_singleton.mp hx)
    · exact .inl (eq_of_mem_replicate hx)

theorem isWordText_of_call (hx : x ∈ (call n).types) : IsWordText x := by
  rcases types_call n x hx with rfl | rfl
  · exact .of_all (by decide)
  · exact .of_all (by decide)

theorem parameters_call_ne_nil (n : Nat) : (call n).parameters ≠ [] := by
  cases n <;> simp [call, replicate_succ]

theorem wellFormed_call (n : Nat) : (call n).WellFormed :=
  ⟨parameters_call_ne_nil n, fun _ hx => (isWordText_of_call hx).isTypeText⟩

/-- The key of a call has no dimension in it. -/
theorem dimension_not_mem_key_call (n : Nat) : '[' ∉ (call n).key.toList := by
  have hparameters : ∀ xs : List String, (∀ x ∈ xs, IsWordText x) →
      '[' ∉ (", ".intercalate xs).toList := by
    intro xs hxs
    induction xs with
    | nil => simp
    | cons x xs ih =>
      rw [forall_mem_cons] at hxs
      have hx := hxs.1.not_mem (c := '[') (by decide)
      cases xs with
      | nil => simpa using hx
      | cons y ys =>
        rw [String.intercalate_cons_cons]
        simp only [String.toList_append, mem_append, not_or]
        exact ⟨⟨hx, by decide⟩, ih hxs.2⟩
  rw [toList_key]
  simp only [mem_append, mem_cons, not_or]
  exact ⟨(isWordText_of_call mem_cons_self).not_mem (by decide), by decide, by decide,
    hparameters _ fun x hx => isWordText_of_call (mem_cons_of_mem _ hx)⟩

/-- A signature with the key of a call is that of the call. -/
theorem eq_of_key_call (hs : s.WellFormed) (h : s.key = (call n).key) : s = call n := by
  refine eq_of_key (fun x hx => ?_) (fun x hx => (isWordText_of_call hx).isUnmarked) hs.parameters
    (parameters_call_ne_nil n) h
  refine ((hs.types x hx).isWordText fun hdimension => ?_).isUnmarked
  exact dimension_not_mem_key_call n (h ▸ mem_key hx hdimension)

/-! ### Agreement -/

/-- The number of parameters; a single `void` is none. -/
def arity (s : Signature) : Nat :=
  if s.parameters = [void] then 0 else s.parameters.length

theorem arity_call (n : Nat) : (call n).arity = n := by
  match n with
  | 0 => rfl
  | 1 => rfl
  | n + 2 => simp [arity, call, replicate_succ]

theorem typesAgree_comm (a b : String) : typesAgree a b = typesAgree b a := by
  rw [typesAgree, typesAgree, Bool.beq_comm, Bool.or_assoc, Bool.or_assoc,
    Bool.or_comm (a == openType)]

theorem voidDiffers_comm (as bs : List String) : voidDiffers as bs = voidDiffers bs as := by
  unfold voidDiffers
  split
  · exact bne_comm
  · rename_i hne
    split
    · exact absurd rfl (hne _ _ rfl)
    · rfl

theorem all_zip_comm (as bs : List String) :
    ((as.zip bs).all fun e => typesAgree e.1 e.2) =
      (bs.zip as).all fun e => typesAgree e.1 e.2 := by
  induction as generalizing bs with
  | nil => simp
  | cons a as ih =>
    cases bs with
    | nil => rfl
    | cons b bs =>
      rw [zip_cons_cons, zip_cons_cons, all_cons, all_cons, ih,
        typesAgree_comm]

theorem agrees_comm (a b : Signature) : a.agrees b = b.agrees a := by
  unfold agrees
  rw [Bool.beq_comm (a := a.key), Bool.beq_comm (a := a.parameters.length), voidDiffers_comm,
    all_zip_comm]

/-- An open type agrees with all. -/
theorem all_zip_open (xs : List String) (n : Nat) :
    ((xs.zip (List.replicate n openType)).all fun e => typesAgree e.1 e.2) = true := by
  rw [all_eq_true]
  intro e he
  rw [eq_of_mem_replicate (of_mem_zip he).2, typesAgree, beq_self_eq_true, Bool.or_true]

/-- A function can be meant by a call exactly if it has as many parameters as the call has
arguments, where the key of the call is that of no other function. -/
theorem agrees_call_iff_of_key (hne : s.parameters ≠ []) (hs : s.key = (call n).key → s = call n) :
    s.agrees (call n) = true ↔ s.arity = n := by
  constructor
  · intro h
    rw [agrees, Bool.or_eq_true, beq_iff_eq] at h
    rcases h with hkey | h
    · rw [hs hkey, arity_call]
    · simp only [Bool.and_eq_true, beq_iff_eq, Bool.not_eq_true'] at h
      obtain ⟨⟨hlength, hvoid⟩, -⟩ := h
      unfold arity
      match n with
      | 0 =>
        obtain ⟨x, hx⟩ := length_eq_one_iff.mp hlength
        rw [hx] at hvoid
        rw [hx, if_pos]
        simpa [call, voidDiffers] using hvoid
      | 1 =>
        obtain ⟨x, hx⟩ := length_eq_one_iff.mp hlength
        rw [hx] at hvoid
        rw [hx, if_neg]
        · rfl
        · rintro hsame
          rw [hsame] at hvoid
          revert hvoid
          decide
      | n + 2 =>
        have hparameters : (call (n + 2)).parameters.length = n + 2 := length_replicate
        rw [hparameters] at hlength
        rw [if_neg, hlength]
        intro hsame
        rw [hsame] at hlength
        cases hlength
  · rintro rfl
    rw [agrees, Bool.or_eq_true]
    right
    simp only [Bool.and_eq_true, beq_iff_eq, Bool.not_eq_true', types, zip_cons_cons,
      all_cons]
    unfold arity call
    split
    · rename_i hvoid
      rw [hvoid]
      refine ⟨⟨rfl, rfl⟩, ?_, rfl⟩
      rw [typesAgree, beq_self_eq_true, Bool.or_true]
    · rename_i hvoid
      have hlength : s.parameters.length ≠ 0 := by simpa using hne
      rw [if_neg hlength]
      refine ⟨⟨by simp, ?_⟩, ?_, all_zip_open _ _⟩
      · unfold voidDiffers
        split
        · rename_i a b ha hb
          rw [ha] at hvoid hb
          obtain rfl : openType = b := by simpa [replicate_succ] using hb
          have hne : (a == void) = false := by simpa using hvoid
          rw [hne]
          rfl
        · rfl
      · rw [typesAgree, beq_self_eq_true, Bool.or_true]

theorem agrees_call_iff (hs : s.WellFormed) : s.agrees (call n) = true ↔ s.arity = n :=
  agrees_call_iff_of_key hs.parameters (eq_of_key_call hs)

/-! ### Signatures of any texts -/

/-- The signature of a declaration or a call, with no mark in a type that keys have between them. -/
structure IsMade (s : Signature) : Prop where
  made : (∃ result parameters, s = declared result parameters) ∨ ∃ n, s = call n
  types : ∀ x ∈ s.types, IsUnmarked x

theorem IsMade.parameters_ne_nil (h : s.IsMade) : s.parameters ≠ [] := by
  rcases h.made with ⟨result, parameters, rfl⟩ | ⟨n, rfl⟩
  · rw [declared]
    split
    · exact cons_ne_nil _ _
    · rename_i hne
      simpa using hne
  · exact parameters_call_ne_nil n

theorem isMade_call (n : Nat) : (call n).IsMade :=
  ⟨.inr ⟨n, rfl⟩, fun _ hx => (isWordText_of_call hx).isUnmarked⟩

theorem agrees_self (s : Signature) : s.agrees s = true := by
  rw [agrees, beq_self_eq_true, Bool.true_or]

/-- Types of which none is open agree, one with the other, only if they are the same. -/
theorem eq_of_all_zip {xs ys : List String} (hxs : openType ∉ xs) (hys : openType ∉ ys)
    (hlength : xs.length = ys.length)
    (h : ((xs.zip ys).all fun e => typesAgree e.1 e.2) = true) : xs = ys := by
  induction xs generalizing ys with
  | nil => exact (length_eq_zero_iff.mp hlength.symm).symm
  | cons x xs ih =>
    cases ys with
    | nil => cases hlength
    | cons y ys =>
      rw [mem_cons, not_or] at hxs hys
      rw [zip_cons_cons, all_cons, Bool.and_eq_true] at h
      have hxy : x = y := by
        simpa [typesAgree, Ne.symm hxs.1, Ne.symm hys.1] using h.1
      rw [hxy, ih hxs.2 hys.2 (Nat.succ.inj hlength) h.2]

/-- **Agreement is equality for declarations and the number of arguments for calls.** It is
reflexive and symmetric. A signature agrees with a call exactly if its arity is the number of
arguments. Where no type is open, signatures agree exactly if they are the same. -/
theorem agreement {a b : Signature} (ha : a.IsMade) (hb : b.IsMade) :
    a.agrees a = true ∧ (a.agrees b = true ↔ b.agrees a = true) ∧
      (∀ n, a.agrees (call n) = true ↔ a.arity = n) ∧
      (openType ∉ a.types → openType ∉ b.types →
        (a.agrees b = true ↔ a.result = b.result ∧ a.parameters = b.parameters)) := by
  refine ⟨agrees_self a, by rw [agrees_comm], fun n => ?_, fun hopen hopen' => ⟨fun h => ?_, ?_⟩⟩
  · refine agrees_call_iff_of_key ha.parameters_ne_nil fun hkey => ?_
    exact eq_of_key ha.types (isMade_call n).types ha.parameters_ne_nil
      (parameters_call_ne_nil n) hkey
  · rw [agrees, Bool.or_eq_true, beq_iff_eq] at h
    rcases h with hkey | h
    · rw [eq_of_key ha.types hb.types ha.parameters_ne_nil hb.parameters_ne_nil hkey]
      exact ⟨rfl, rfl⟩
    · simp only [Bool.and_eq_true, beq_iff_eq] at h
      exact cons.inj (eq_of_all_zip hopen hopen' (congrArg (· + 1) h.1.1) h.2)
  · rintro ⟨hresult, hparameters⟩
    obtain rfl : a = b := congrArg₂ Signature.mk hresult hparameters
    exact agrees_self a

/-- A function without parameters is not one with a parameter, for calls and declarations alike. -/
theorem agreement_void :
    let a := declared "float" []
    let b := declared "float" ["vec2[3]"]
    (a.agrees (call 0) = true ↔ a.arity = 0) ∧ ¬a.agrees (call 1) = true ∧
      b.agrees (call 1) = true ∧ ¬b.agrees (call 0) = true ∧ ¬a.agrees b = true := by
  intro a b
  have ha : a.IsMade := ⟨.inl ⟨_, _, rfl⟩, by unfold IsUnmarked; decide⟩
  have hb : b.IsMade := ⟨.inl ⟨_, _, rfl⟩, by unfold IsUnmarked; decide⟩
  obtain ⟨-, -, hcall, heq⟩ := agreement ha hb
  obtain ⟨-, -, hcall', -⟩ := agreement hb ha
  rw [hcall, hcall', hcall', hcall, heq (by decide) (by decide)]
  decide

end Signature

end ShaderSource
