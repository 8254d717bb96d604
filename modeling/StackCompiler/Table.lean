/-!
# Small tables and sets

`Table` is a finite map kept as a list with at most one pair for a key, and `IdSet` a
finite set of numbers kept in ascending order.
-/

namespace StackCompiler

/-- A finite map, as pairs of a key and its value. -/
abbrev Table (κ ν : Type) := List (κ × ν)

namespace Table

variable {κ ν : Type} [DecidableEq κ]

/-- The value of a key. -/
def at? (t : Table κ ν) (key : κ) : Option ν := (t.find? fun p => p.1 = key).map (·.2)

/-- The table without a key. -/
def without (t : Table κ ν) (key : κ) : Table κ ν := t.filter fun p => p.1 ≠ key

/-- The table with a new value for a key. -/
def put (t : Table κ ν) (key : κ) (value : ν) : Table κ ν := (key, value) :: t.without key

@[simp]
theorem at?_nil (key : κ) :
  Table.at? ([] : Table κ ν) key = none
  := rfl

/-- Without a key a table has no value for it, and the same values for other keys. -/
theorem at?_without (t : Table κ ν) (key other : κ) :
  (t.without key).at? other = if other = key then none else t.at? other
  := by
  induction t with
  | nil => simp [without, at?]
  | cons p t ih =>
    simp only [without, at?] at ih ⊢
    by_cases hp : p.1 = key
    · rw [List.filter_cons_of_neg (by simpa using hp), ih]
      by_cases ho : other = key
      · simp [ho]
      · have : p.1 ≠ other := fun h => ho (h ▸ hp)
        simp [ho, this]
    · rw [List.filter_cons_of_pos (by simpa using hp)]
      by_cases ho : p.1 = other
      · have : other ≠ key := fun h => hp (ho.trans h)
        simp [ho, this]
      · rw [List.find?_cons_of_neg (by simpa using ho),
          List.find?_cons_of_neg (by simpa using ho), ih]

/-- A table has the value that was put for a key, and the same values for other keys. -/
@[simp]
theorem at?_put (t : Table κ ν) (key other : κ) (value : ν) :
  (t.put key value).at? other = if other = key then some value else t.at? other
  := by
  by_cases h : other = key
  · simp [put, at?, h]
  · have hne : ¬ key = other := fun e => h e.symm
    have ht := at?_without t key other
    rw [if_neg h] at ht
    simp only [put, at?, List.find?_cons, decide_eq_false hne, if_neg h]
    exact ht

theorem at?_cons (p : κ × ν) (t : Table κ ν) (key : κ) :
  Table.at? (p :: t) key = if key = p.1 then some p.2 else t.at? key
  := by
  by_cases h : key = p.1
  · simp [at?, h]
  · have hne : ¬ p.1 = key := fun e => h e.symm
    simp [at?, h, hne]

/-- A table has no value for a key that no pair has. -/
theorem at?_eq_none {t : Table κ ν} {key : κ} (h : key ∉ t.map Prod.fst) :
  t.at? key = none
  := by
  induction t with
  | nil => rfl
  | cons p t ih =>
    rw [List.map_cons, List.mem_cons, not_or] at h
    rw [at?_cons, if_neg h.1]
    exact ih h.2

/-- When a key has one pair, the pair is what is found. -/
theorem at?_of_mem {t : Table κ ν} {key : κ} {value : ν} (ht : (t.map Prod.fst).Nodup)
    (h : (key, value) ∈ t) :
  t.at? key = some value
  := by
  induction t with
  | nil => cases h
  | cons p t ih =>
    rw [List.map_cons, List.nodup_cons] at ht
    rw [at?_cons]
    rcases List.mem_cons.mp h with rfl | h
    · exact if_pos rfl
    · rw [if_neg, ih ht.2 h]
      intro heq
      exact ht.1 (heq ▸ List.mem_map_of_mem h)

theorem mem_of_at? {t : Table κ ν} {key : κ} {value : ν} (h : t.at? key = some value) :
  (key, value) ∈ t
  := by
  obtain ⟨⟨other, value⟩, hfind, rfl⟩ := Option.map_eq_some_iff.mp h
  have hother := List.find?_some hfind
  simp only [decide_eq_true_eq] at hother
  subst hother
  exact List.mem_of_find?_eq_some hfind

theorem nodup_put {t : Table κ ν} (ht : (t.map Prod.fst).Nodup) (key : κ) (value : ν) :
  ((t.put key value).map Prod.fst).Nodup
  := by
  unfold put without
  rw [List.map_cons, List.nodup_cons]
  constructor
  · simp
  · exact List.Pairwise.sublist (List.filter_sublist.map _) ht

end Table

/-- A finite set of numbers, in ascending order. -/
abbrev IdSet := List Nat

namespace IdSet

/-- Adds a number. -/
def add (n : Nat) : IdSet → IdSet
  | [] => [n]
  | m :: rest =>
    if n < m then n :: m :: rest
    else if n = m then m :: rest
    else m :: add n rest

/-- The members of a set with a number added are this number and those of the set. -/
@[simp]
theorem mem_add (n m : Nat) (s : IdSet) :
  m ∈ add n s ↔ m = n ∨ m ∈ s
  := by
  induction s with
  | nil => simp [add]
  | cons k s ih =>
    simp only [add]
    split
    · simp
    · split
      · rename_i h
        simp [h]
      · simp only [List.mem_cons, ih]
        constructor
        · rintro (h | h | h)
          · exact Or.inr (Or.inl h)
          · exact Or.inl h
          · exact Or.inr (Or.inr h)
        · rintro (h | h | h)
          · exact Or.inr (Or.inl h)
          · exact Or.inl h
          · exact Or.inr (Or.inr h)

/-- Adding a number keeps the ascending order. -/
theorem pairwise_add {s : IdSet} (h : s.Pairwise (· < ·)) (n : Nat) :
  (add n s).Pairwise (· < ·)
  := by
  induction s with
  | nil => exact List.pairwise_singleton ..
  | cons m s ih =>
    obtain ⟨hm, hs⟩ := List.pairwise_cons.mp h
    unfold add
    split
    · rename_i hlt
      refine List.pairwise_cons.mpr ⟨fun k hk => ?_, h⟩
      rcases List.mem_cons.mp hk with rfl | hk
      · exact hlt
      · exact Nat.lt_trans hlt (hm k hk)
    · split
      · exact h
      · refine List.pairwise_cons.mpr ⟨fun k hk => ?_, ih hs⟩
        rcases (mem_add ..).mp hk with rfl | hk
        · omega
        · exact hm k hk

end IdSet

end StackCompiler
