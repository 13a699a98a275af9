/-!
# Dictionaries

Names with values, in the order in which the names were first entered. A name occurs at most once
as long as entries are made by `insert`; writing to a name that is there already keeps its place.
-/

namespace CommandLanguage

/-- Names with values. -/
abbrev Dictionary (α : Type) := List (String × α)

namespace Dictionary

variable {α : Type}

/-- The value of a name. -/
def get? (d : Dictionary α) (name : String) : Option α := d.lookup name

/-- Whether a name has a value. -/
def contains (d : Dictionary α) (name : String) : Bool := (d.get? name).isSome

/-- Gives a name a value. -/
def insert (name : String) (value : α) : Dictionary α → Dictionary α
  | [] => [(name, value)]
  | (n, v) :: r => if n == name then (n, value) :: r else (n, v) :: insert name value r

/-- Takes a name out. -/
def erase (name : String) : Dictionary α → Dictionary α
  | [] => []
  | (n, v) :: r => if n == name then r else (n, v) :: erase name r

/-- The names, in order. -/
def names (d : Dictionary α) : List String := d.map Prod.fst

/-- The values, in order. -/
def values (d : Dictionary α) : List α := d.map Prod.snd

/-- The same names, each with a value made of the one it had. -/
def mapValues {β : Type} (f : α → β) (d : Dictionary α) : Dictionary β :=
  d.map fun e => (e.1, f e.2)

@[simp] theorem get?_nil (name : String) : get? ([] : Dictionary α) name = none := rfl

@[simp] theorem get?_cons (n : String) (v : α) (d : Dictionary α) (name : String) :
    get? ((n, v) :: d) name = if name == n then some v else get? d name := by
  rw [get?, List.lookup_cons]
  cases name == n <;> rfl

theorem get?_insert (name : String) (value : α) (d : Dictionary α) (other : String) :
    (d.insert name value).get? other = if other == name then some value else d.get? other := by
  induction d with
  | nil => simp [insert]
  | cons e r ih =>
    obtain ⟨n, v⟩ := e
    simp only [insert]
    by_cases h : n = name
    · subst h
      by_cases h' : other = n <;> simp [h']
    · by_cases h' : other = n
      · subst h'
        simp [h]
      · simp [h, h', ih]

theorem names_insert (name : String) (value : α) (d : Dictionary α) :
    (d.insert name value).names = if name ∈ d.names then d.names else d.names ++ [name] := by
  induction d with
  | nil => simp [insert, names]
  | cons e r ih =>
    obtain ⟨n, v⟩ := e
    simp only [insert]
    by_cases h : n = name
    · subst h
      simp [names]
    · simp only [names, List.map_cons, beq_iff_eq, h, if_false, List.mem_cons] at ih ⊢
      rw [ih]
      by_cases h' : name ∈ r.map Prod.fst
      · simp [h']
      · simp [h', Ne.symm h]

/-! ## Values made of values -/

section

variable {β : Type} (f : α → β)

@[simp] theorem names_mapValues (d : Dictionary α) : (d.mapValues f).names = d.names := by
  simp [names, mapValues]

theorem get?_mapValues (d : Dictionary α) (name : String) :
    (d.mapValues f).get? name = (d.get? name).map f := by
  induction d with
  | nil => rfl
  | cons e r ih =>
    obtain ⟨n, v⟩ := e
    rw [mapValues, List.map_cons, get?_cons, get?_cons, ← mapValues, ih]
    split <;> rfl

@[simp] theorem contains_mapValues (d : Dictionary α) (name : String) :
    (d.mapValues f).contains name = d.contains name := by
  rw [contains, contains, get?_mapValues, Option.isSome_map]

theorem mapValues_insert (name : String) (v : α) (d : Dictionary α) :
    (d.insert name v).mapValues f = (d.mapValues f).insert name (f v) := by
  induction d with
  | nil => rfl
  | cons e r ih =>
    obtain ⟨n, x⟩ := e
    simp only [insert, mapValues, List.map_cons] at ih ⊢
    split
    · rfl
    · rw [List.map_cons, ih]

theorem mapValues_erase (name : String) (d : Dictionary α) :
    (d.erase name).mapValues f = (d.mapValues f).erase name := by
  induction d with
  | nil => rfl
  | cons e r ih =>
    obtain ⟨n, x⟩ := e
    simp only [erase, mapValues, List.map_cons] at ih ⊢
    split
    · rfl
    · rw [List.map_cons, ih]

end

/-! ## Entries -/

/-- A value that a name has is that of an entry. -/
theorem mem_of_get? {d : Dictionary α} {name : String} {v : α} (h : d.get? name = some v) :
    (name, v) ∈ d := by
  induction d with
  | nil => simp at h
  | cons e r ih =>
    obtain ⟨n, x⟩ := e
    rw [get?_cons] at h
    split at h
    · rename_i hn
      cases h
      rw [eq_of_beq hn]
      exact List.mem_cons_self
    · exact List.mem_cons_of_mem _ (ih h)

/-- An entry after writing to a name is the new one or was there before. -/
theorem mem_insert {d : Dictionary α} {name : String} {v : α} {e : String × α}
    (h : e ∈ d.insert name v) : e = (name, v) ∨ e ∈ d := by
  induction d with
  | nil => exact .inl (List.mem_singleton.1 h)
  | cons x r ih =>
    obtain ⟨n, y⟩ := x
    simp only [insert] at h
    split at h
    · rename_i hn
      rw [eq_of_beq hn] at h
      rcases List.mem_cons.1 h with h | h
      · exact .inl h
      · exact .inr (List.mem_cons_of_mem _ h)
    · rcases List.mem_cons.1 h with h | h
      · exact .inr (h ▸ List.mem_cons_self)
      · rcases ih h with h | h
        · exact .inl h
        · exact .inr (List.mem_cons_of_mem _ h)

/-- What is left after taking out a name was there before. -/
theorem mem_of_mem_erase {d : Dictionary α} {name : String} {e : String × α}
    (h : e ∈ d.erase name) : e ∈ d := by
  induction d with
  | nil => exact h
  | cons x r ih =>
    obtain ⟨n, y⟩ := x
    simp only [erase] at h
    split at h
    · exact List.mem_cons_of_mem _ h
    · rcases List.mem_cons.1 h with h | h
      · exact h ▸ List.mem_cons_self
      · exact List.mem_cons_of_mem _ (ih h)

end Dictionary

end CommandLanguage
