import ShaderSource.Scope.Registry

/-!
# Registries as maps

What the operations on registries do to the values of keys and to the entries. A registry that is
made by putting in keys, starting from the empty one, has each key once; taking out a key is what
it should be only for such registries.

## Main results

* `Registry.get?_insert`, `Registry.get?_erase`: the values of keys after an operation.
* `Registry.mem_insert`: where an entry comes from.
* `Registry.flatMap_insert`: what is gathered from all entries when one of them is changed.
-/

namespace ShaderSource

open List

namespace Registry

variable {κ α : Type}

/-- Each key is there once. -/
def Unique (r : Registry κ α) : Prop :=
  (r.map Prod.fst).Nodup

theorem unique_nil : Unique ([] : Registry κ α) :=
  nodup_nil

variable [DecidableEq κ] {r : Registry κ α} {k : κ} {a : α} {e : κ × α}

/-! ### Values of keys -/

theorem get?_insert (r : Registry κ α) (k k' : κ) (a : α) :
    (r.insert k a).get? k' = if k = k' then some a else r.get? k' := by
  induction r with
  | nil => simp [insert, get?]
  | cons e r ih =>
    obtain ⟨k₀, a₀⟩ := e
    by_cases h : k₀ = k
    · subst h
      by_cases h' : k₀ = k' <;> simp [insert, get?, h']
    · by_cases h' : k₀ = k'
      · subst h'
        simp [insert, get?, h, Ne.symm h]
      · simp [insert, get?, h, h', ih]

theorem get?_modify (r : Registry κ α) (k k' : κ) (f : α → α) :
    (r.modify k f).get? k' = if k = k' then (r.get? k').map f else r.get? k' := by
  induction r with
  | nil => simp [modify, get?]
  | cons e r ih =>
    obtain ⟨k₀, a₀⟩ := e
    by_cases h : k₀ = k
    · subst h
      by_cases h' : k₀ = k' <;> simp [modify, get?, h']
    · by_cases h' : k₀ = k'
      · subst h'
        simp [modify, get?, h, Ne.symm h]
      · simp [modify, get?, h, h', ih]

theorem get?_eq_none_iff : r.get? k = none ↔ k ∉ r.map Prod.fst := by
  induction r with
  | nil => simp [get?]
  | cons e r ih =>
    obtain ⟨k', a⟩ := e
    by_cases h : k' = k
    · simp [get?, h]
    · simp [get?, h, ih, Ne.symm h]

theorem get?_erase (hr : r.Unique) (k k' : κ) :
    (r.erase k).get? k' = if k = k' then none else r.get? k' := by
  induction r with
  | nil => simp [erase, get?]
  | cons e r ih =>
    obtain ⟨k₀, a₀⟩ := e
    obtain ⟨hk₀, hr⟩ := nodup_cons.mp hr
    by_cases h : k₀ = k
    · subst h
      by_cases h' : k₀ = k'
      · subst h'
        simp [erase, get?_eq_none_iff.mpr hk₀]
      · simp [erase, get?, h']
    · by_cases h' : k₀ = k'
      · subst h'
        simp [erase, get?, h, Ne.symm h]
      · simp [erase, get?, h, h', ih hr]

theorem insert_insert (r : Registry κ α) (k : κ) (a b : α) :
    (r.insert k a).insert k b = r.insert k b := by
  induction r with
  | nil => simp [insert]
  | cons e r ih =>
    obtain ⟨k', c⟩ := e
    by_cases h : k' = k
    · simp [insert, h]
    · simp [insert, h, ih]

theorem erase_insert (r : Registry κ α) (k : κ) (a : α) : (r.insert k a).erase k = r.erase k := by
  induction r with
  | nil => simp [insert, erase]
  | cons e r ih =>
    obtain ⟨k', c⟩ := e
    by_cases h : k' = k
    · simp [insert, erase, h]
    · simp [insert, erase, h, ih]

/-- The first registry comes first. -/
theorem get?_append (r r' : Registry κ α) (k : κ) :
    get? k (r ++ r') = (r.get? k).or (r'.get? k) := by
  induction r with
  | nil => simp [get?]
  | cons e r ih =>
    obtain ⟨k', a⟩ := e
    by_cases h : k' = k
    · simp [get?, h]
    · simpa [get?, h] using ih

theorem erase_of_get?_eq_none (h : r.get? k = none) : r.erase k = r := by
  induction r with
  | nil => rfl
  | cons e r ih =>
    obtain ⟨k', a⟩ := e
    by_cases hk : k' = k
    · simp [get?, hk] at h
    · rw [erase, if_neg hk, ih (by simpa [get?, hk] using h)]

/-- A registry without values is empty. -/
theorem eq_nil_of_get?_eq_none (h : ∀ k, r.get? k = none) : r = [] := by
  cases r with
  | nil => rfl
  | cons e r =>
    have := h e.1
    simp [get?] at this

theorem modify_eq_insert (h : r.get? k = some a)
    (f : α → α) : r.modify k f = r.insert k (f a) := by
  induction r with
  | nil => cases h
  | cons e r ih =>
    obtain ⟨k', a'⟩ := e
    by_cases hk : k' = k
    · subst hk
      obtain rfl : a' = a := by simpa [get?] using h
      simp [modify, insert]
    · simp only [modify, insert, if_neg hk]
      rw [ih (by simpa [get?, hk] using h)]

theorem insert_of_none (h : r.get? k = none) (a : α) :
    r.insert k a = r ++ [(k, a)] := by
  induction r with
  | nil => rfl
  | cons e r ih =>
    obtain ⟨k', a'⟩ := e
    by_cases hk : k' = k
    · simp [get?, hk] at h
    · rw [insert, if_neg hk, ih (by simpa [get?, hk] using h), cons_append]

/-! ### Entries -/

theorem mem_of_get? (h : r.get? k = some a) : (k, a) ∈ r := by
  induction r with
  | nil => cases h
  | cons e r ih =>
    obtain ⟨k', a'⟩ := e
    by_cases hk : k' = k
    · subst hk
      obtain rfl : a' = a := by simpa [get?] using h
      exact mem_cons_self
    · exact mem_cons_of_mem _ (ih (by simpa [get?, hk] using h))

theorem mem_insert (h : e ∈ r.insert k a) :
    e = (k, a) ∨ e ∈ r := by
  induction r with
  | nil => exact .inl (mem_singleton.mp h)
  | cons e' r ih =>
    by_cases hk : e'.1 = k
    · rw [insert, if_pos hk] at h
      exact (mem_cons.mp h).imp_right (mem_cons_of_mem _)
    · rw [insert, if_neg hk] at h
      rcases mem_cons.mp h with rfl | h
      · exact .inr mem_cons_self
      · exact (ih h).imp_right (mem_cons_of_mem _)

theorem mem_erase (h : e ∈ r.erase k) : e ∈ r := by
  induction r with
  | nil => cases h
  | cons e' r ih =>
    by_cases hk : e'.1 = k
    · rw [erase, if_pos hk] at h
      exact mem_cons_of_mem _ h
    · rw [erase, if_neg hk] at h
      rcases mem_cons.mp h with rfl | h
      · exact mem_cons_self
      · exact mem_cons_of_mem _ (ih h)

/-! ### Unique keys -/

theorem Unique.insert (hr : r.Unique) (k : κ) (a : α) :
    (r.insert k a).Unique := by
  induction r with
  | nil => simp [Unique, Registry.insert]
  | cons e r ih =>
    obtain ⟨k', a'⟩ := e
    obtain ⟨hk', hr⟩ := nodup_cons.mp hr
    by_cases hk : k' = k
    · subst hk
      rw [Registry.insert, if_pos rfl]
      exact nodup_cons.mpr ⟨hk', hr⟩
    · rw [Registry.insert, if_neg hk]
      refine nodup_cons.mpr ⟨?_, ih hr⟩
      rw [← get?_eq_none_iff] at hk' ⊢
      rw [get?_insert, if_neg (Ne.symm hk), hk']

theorem Unique.erase (hr : r.Unique) (k : κ) : (r.erase k).Unique := by
  induction r with
  | nil => exact unique_nil
  | cons e r ih =>
    obtain ⟨k', a'⟩ := e
    obtain ⟨hk', hr⟩ := nodup_cons.mp hr
    by_cases hk : k' = k
    · rw [Registry.erase, if_pos hk]
      exact hr
    · rw [Registry.erase, if_neg hk]
      refine nodup_cons.mpr ⟨?_, ih hr⟩
      intro hmem
      obtain ⟨e, he, heq⟩ := mem_map.mp hmem
      exact hk' (mem_map.mpr ⟨e, mem_erase he, heq⟩)

theorem get?_of_mem (hr : r.Unique) (h : (k, a) ∈ r) :
    r.get? k = some a := by
  induction r with
  | nil => cases h
  | cons e r ih =>
    obtain ⟨k', a'⟩ := e
    obtain ⟨hk', hr⟩ := nodup_cons.mp hr
    rcases mem_cons.mp h with heq | h
    · cases heq
      simp [get?]
    · have hne : k' ≠ k := by
        rintro rfl
        exact hk' (mem_map.mpr ⟨_, h, rfl⟩)
      simp [get?, hne, ih hr h]

/-! ### What is gathered from the entries -/

section Gathering

variable {β : Type}

/-- Putting in a value from which more is gathered. -/
theorem flatMap_insert_append {f : κ × α → List β} {xs : List β}
    (h : (f (k, a)).Perm (xs ++ ((r.get? k).map fun a => f (k, a)).getD [])) :
    ((r.insert k a).flatMap f).Perm (xs ++ r.flatMap f) := by
  induction r with
  | nil => simpa [insert, get?] using h
  | cons e r ih =>
    obtain ⟨k', a'⟩ := e
    by_cases hk : k' = k
    · subst hk
      have hthis : (f (k', a)).Perm (xs ++ f (k', a')) := by simpa [get?] using h
      simpa [insert] using hthis.append_right (r.flatMap f)
    · rw [insert, if_neg hk, flatMap_cons, flatMap_cons]
      have hrest := ih (by simpa [get?, hk] using h)
      exact (hrest.append_left _).trans (perm_append_comm_assoc _ _ _)

/-- Putting in a value from which one thing more is gathered. -/
theorem flatMap_insert {f : κ × α → List β} {x : β}
    (h : (f (k, a)).Perm (x :: ((r.get? k).map fun a => f (k, a)).getD [])) :
    ((r.insert k a).flatMap f).Perm (x :: r.flatMap f) := by
  have hsingle : (f (k, a)).Perm ([x] ++ ((r.get? k).map fun a => f (k, a)).getD []) := h
  exact flatMap_insert_append hsingle

theorem flatMap_erase (h : r.get? k = some a)
    (f : κ × α → List β) : (r.flatMap f).Perm (f (k, a) ++ (r.erase k).flatMap f) := by
  induction r with
  | nil => cases h
  | cons e r ih =>
    obtain ⟨k', a'⟩ := e
    by_cases hk : k' = k
    · subst hk
      obtain rfl : a' = a := by simpa [get?] using h
      simp [erase]
    · rw [erase, if_neg hk, flatMap_cons, flatMap_cons]
      have hrest := ih (by simpa [get?, hk] using h)
      refine (hrest.append_left _).trans ?_
      rw [← append_assoc, ← append_assoc]
      exact perm_append_comm.append_right _

end Gathering

end Registry

end ShaderSource
