import CommandLanguage.Proofs.Scope.Names

/-!
# What writing to a dictionary leaves alone

Writing to a name, or taking it out, is seen at that name and nowhere else: the entries of all other
names (`others`) stay what they are, in their order. A dictionary whose names are all different stays
one. Taking out a name that is entered once leaves none of it, and of two values that are written to
a name one after the other, nothing is left of the first.
-/

namespace CommandLanguage.Dictionary

variable {α : Type} {d d' : Dictionary α} {name n : String} {v : α}

/-! ## Other names -/

/-- The entries of all names but one, in order. To say that these are the same is to say at once
that no value, no name and no place of another entry has changed. -/
def others (name : String) (d : Dictionary α) : Dictionary α := d.filter (·.1 != name)

theorem others_cons_self (name : String) (v : α) (d : Dictionary α) :
    others name ((name, v) :: d) = others name d :=
  List.filter_cons_of_neg (by simp)

theorem others_cons_of_ne (h : n ≠ name) (v : α) (d : Dictionary α) :
    others name ((n, v) :: d) = (n, v) :: others name d :=
  List.filter_cons_of_pos (by simpa using h)

theorem others_insert (name : String) (v : α) (d : Dictionary α) :
    others name (d.insert name v) = others name d := by
  induction d with
  | nil => exact others_cons_self name v []
  | cons e r ih =>
    obtain ⟨n, x⟩ := e
    rw [insert]
    by_cases h : n = name
    · subst h
      rw [if_pos (beq_self_eq_true n), others_cons_self, others_cons_self]
    · rw [if_neg (by simpa using h), others_cons_of_ne h, others_cons_of_ne h, ih]

theorem others_erase (name : String) (d : Dictionary α) : others name (d.erase name) = others name d := by
  induction d with
  | nil => rfl
  | cons e r ih =>
    obtain ⟨n, x⟩ := e
    rw [erase]
    by_cases h : n = name
    · subst h
      rw [if_pos (beq_self_eq_true n), others_cons_self]
    · rw [if_neg (by simpa using h), others_cons_of_ne h, others_cons_of_ne h, ih]

/-- The value of a name depends on the entries of that name alone. -/
theorem get?_others (h : n ≠ name) (d : Dictionary α) : (others name d).get? n = d.get? n := by
  induction d with
  | nil => rfl
  | cons e r ih =>
    obtain ⟨m, x⟩ := e
    by_cases hm : m = name
    · subst hm
      rw [others_cons_self, ih, get?_cons, if_neg (by simpa using h)]
    · rw [others_cons_of_ne hm, get?_cons, get?_cons, ih]

theorem get?_eq_of_others_eq (hd : others name d = others name d') (h : n ≠ name) :
    d.get? n = d'.get? n := by
  rw [← get?_others h d, hd, get?_others h d']

/-! ## The name itself -/

theorem get?_insert_self (name : String) (v : α) (d : Dictionary α) :
    (d.insert name v).get? name = some v := by
  rw [get?_insert, if_pos (beq_self_eq_true name)]

theorem insert_insert (name : String) (v v' : α) (d : Dictionary α) :
    (d.insert name v).insert name v' = d.insert name v' := by
  induction d with
  | nil => simp [insert]
  | cons e r ih =>
    obtain ⟨n, x⟩ := e
    by_cases h : n = name
    · simp [insert, h]
    · simp [insert, h, ih]

/-! ## Names that are all different

A dictionary that is built by its operations has each name once. Only then is to remove a name to
leave no value for it. -/

theorem names_erase (name : String) (d : Dictionary α) :
    (d.erase name).names = d.names.erase name := by
  induction d with
  | nil => rfl
  | cons e r ih =>
    obtain ⟨n, x⟩ := e
    simp only [names, List.map_cons, List.erase_cons, erase] at ih ⊢
    split
    · rfl
    · rw [List.map_cons, ih]

theorem nodup_names_insert (h : d.names.Nodup) : (d.insert name v).names.Nodup := by
  rw [names_insert]
  split
  · exact h
  · rename_i hname
    refine List.nodup_append.2 ⟨h, by simp, ?_⟩
    rintro n hn m hm rfl
    exact hname (by rwa [← List.mem_singleton.1 hm])

theorem nodup_names_erase (h : d.names.Nodup) : (d.erase name).names.Nodup := by
  rw [names_erase]
  exact h.erase name

/-- A name that is entered once is gone when it is taken out. -/
theorem get?_erase_self (h : d.names.Nodup) (name : String) : (d.erase name).get? name = none := by
  have hgone : name ∉ (d.erase name).names := by
    rw [names_erase]
    exact h.not_mem_erase
  cases hget : (d.erase name).get? name with
  | none => rfl
  | some v => exact absurd (contains_iff_mem_names.1 (by rw [contains, hget]; rfl)) hgone

end CommandLanguage.Dictionary
