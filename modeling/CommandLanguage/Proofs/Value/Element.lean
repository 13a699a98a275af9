import CommandLanguage.Proofs.Decimal.Integer
import CommandLanguage.Proofs.Dictionary
import CommandLanguage.Value.Element

/-!
# Elements that are written are read back

Whatever a value is and whatever it is given as a key, an element can be written to it, and reading
with the same key gives what was written. Reading and writing do not treat a key alike: a list is
read at positions that may be counted from its end, but is written at those in it and right behind
it only, and becomes a map for all other keys. They agree nevertheless, because the key of a map is
its text in both (`element_written`) and a position that is written to is read as such
(`element_placed`).

Nothing else changes: the other entries of a map keep their values and their order, the other items
of a list their positions.
-/

namespace CommandLanguage

/-- Positions are written alike only if they are the same. -/
theorem Decimal.integer_natCast (n : Nat) : integer n = String.ofList (digits n) := by
  have hn : decide ((n : Int) < 0) = false := decide_eq_false (by omega)
  rw [integer, hn]
  rfl

namespace Value

variable {name : String} {current key v : Value} {items : List Value} {i : Nat}

/-- The names of a map, if it is one, are all different. -/
def HasDistinctNames : Value → Prop
  | .map entries => (Dictionary.names entries).Nodup
  | _ => True

/-! ## Maps -/

/-- Writing to a map, where writing nothing takes an entry out. So a map holds no entries without a
value by way of assignments. -/
def written (entries : Dictionary Value) (key v : Value) : Dictionary Value :=
  if v.isNull then entries.erase key.toText else entries.insert key.toText v

theorem setElement_map (entries : List (String × Value)) (key v : Value) :
    setElement (.map entries) key v = .map (written entries key v) := by
  rw [setElement, written]
  split <;> rfl

theorem eq_null_of_isNull (h : v.isNull = true) : v = .null := by
  cases v with
  | null => rfl
  | _ => cases h

/-- What is read from a map where it was written to. -/
theorem element_map_insert (name : String) (entries : Dictionary Value) (key v : Value) :
    element name (.map (entries.insert key.toText v)) key = .ok v := by
  rw [element, Dictionary.get?_insert_self]
  rfl

theorem element_written {entries : Dictionary Value} (h : entries.names.Nodup) :
    element name (.map (written entries key v)) key = .ok v := by
  rw [written]
  split
  · rename_i hnull
    rw [element, Dictionary.get?_erase_self h, eq_null_of_isNull hnull]
    rfl
  · exact element_map_insert name entries key v

theorem nodup_names_written {entries : Dictionary Value} (h : entries.names.Nodup) :
    (written entries key v).names.Nodup := by
  rw [written]
  split
  · exact Dictionary.nodup_names_erase h
  · exact Dictionary.nodup_names_insert h

theorem others_written (entries : Dictionary Value) (key v : Value) :
    (written entries key v).others key.toText = entries.others key.toText := by
  rw [written]
  split
  · exact Dictionary.others_erase _ _
  · exact Dictionary.others_insert _ _ _

/-! ## Lists -/

/-- The positions that can be written to are those up to the end. -/
theorem writePosition?_eq_some {n : Nat} :
    writePosition? n key = some i ↔ ∃ k, key.toInteger = .ok k ∧ k.toInt = i ∧ i ≤ n := by
  unfold writePosition?
  cases hkey : key.toInteger with
  | error e =>
    constructor
    · intro h
      cases h
    · rintro ⟨k, hk, -⟩
      cases hk
  | ok k =>
    dsimp only
    constructor
    · intro h
      split at h
      · rename_i hk
        -- the position that is written to is the key itself, which is not counted from the end
        obtain ⟨h₀, hn⟩ : 0 ≤ k.toInt ∧ k.toInt ≤ n := by simpa using hk
        cases h
        exact ⟨k, rfl, by omega, by omega⟩
      · cases h
    · rintro ⟨k', hk', hki, hi⟩
      cases hk'
      have hbounds : (decide (0 ≤ k.toInt) && decide (k.toInt ≤ n)) = true := by
        rw [Bool.and_eq_true, decide_eq_true_iff, decide_eq_true_iff]
        omega
      rw [if_pos hbounds, hki]
      rfl

/-- A list with an item put at one of its positions or, for any later one, at its end. Only the
position right behind the last one is ever asked for beyond the list. -/
def placed (items : List Value) (i : Nat) (v : Value) : List Value :=
  if i < items.length then items.set i v else items ++ [v]

/-- An item that is put into a list stands where it was put, and all others where they were. -/
theorem getElem?_placed (hi : i ≤ items.length) (v : Value) (j : Nat) :
    (placed items i v)[j]? = if j = i then some v else items[j]? := by
  rw [placed]
  split
  · rename_i hlt
    rw [List.getElem?_set, if_pos hlt]
    by_cases hj : j = i
    · rw [if_pos hj, if_pos hj.symm]
    · rw [if_neg hj, if_neg (Ne.symm hj)]
  · rename_i hge
    -- the position right behind the list, where the item is put at the end
    obtain rfl : i = items.length := by omega
    by_cases hj : j = items.length
    · rw [if_pos hj, hj, List.getElem?_append_right (Nat.le_refl _), Nat.sub_self]
      rfl
    · rw [if_neg hj]
      by_cases hlt : j < items.length
      · exact List.getElem?_append_left hlt
      · have hout : (items ++ [v]).length ≤ j := by
          rw [List.length_append, List.length_singleton]
          omega
        rw [List.getElem?_eq_none hout, List.getElem?_eq_none (by omega)]

theorem length_placed (items : List Value) (i : Nat) (v : Value) :
    items.length ≤ (placed items i v).length ∧ (placed items i v).length ≤ items.length + 1 := by
  rw [placed]
  split
  · rw [List.length_set]
    omega
  · rw [List.length_append, List.length_singleton]
    omega

/-- Writing to a list puts an item into it, or makes a map of it and enters the key there. The items
are then the entries of the map, under their positions. -/
theorem setElement_list (items : List Value) (key v : Value) :
    (∃ p, writePosition? items.length key = some p ∧
      setElement (.list items) key v = .list (placed items p v)) ∨
    (writePosition? items.length key = none ∧ setElement (.list items) key v =
      .map (Dictionary.insert key.toText v (listEntries items))) := by
  cases h : writePosition? items.length key with
  | some p =>
    refine .inl ⟨p, rfl, ?_⟩
    simp only [setElement, h, placed]
  | none =>
    refine .inr ⟨rfl, ?_⟩
    simp only [setElement, h]

/-- A position that is not counted from the end is that of the item. -/
theorem itemAt?_natCast (items : List Value) (i : Nat) : itemAt? items i = items[i]? := by
  have hi : ¬ (i : Int) < 0 := by omega
  simp only [itemAt?, if_neg hi]
  rfl

theorem element_placed (h : writePosition? items.length key = some i) :
    element name (.list (placed items i v)) key = .ok v := by
  obtain ⟨k, hk, hki, hi⟩ := writePosition?_eq_some.1 h
  rw [element, hk, Except.map, hki, itemAt?_natCast, getElem?_placed hi, if_pos rfl]
  rfl

/-- The names of the map that is made of a list are the positions in it. -/
theorem names_listEntries (items : List Value) :
    Dictionary.names (listEntries items) =
      (List.range items.length).map fun i : Nat => Decimal.integer i := by
  rw [listEntries, Dictionary.names, List.map_map, List.range_eq_range', ← List.zipIdx_map_snd,
    List.map_map]
  rfl

theorem nodup_names_listEntries (items : List Value) :
    (Dictionary.names (listEntries items)).Nodup := by
  rw [names_listEntries]
  refine List.pairwise_map.2 (List.nodup_range.imp ?_)
  intro m n hmn heq
  rw [Decimal.integer_natCast, Decimal.integer_natCast] at heq
  refine hmn ?_
  rw [← Decimal.digitsValue_digits m, ← Decimal.digitsValue_digits n, String.ofList_injective heq]

/-! ## All values

What is neither a map nor a list becomes a map when an element is set, with that one entry or with
none if there is nothing to set. So there is a clause for each kind of value. -/

/-- A value is a map, a list, or has no elements and becomes a map with one entry at most. -/
theorem setElement_cases (current : Value) :
    (∃ entries, current = .map entries) ∨ (∃ items, current = .list items) ∨
      (∀ entries, current ≠ .map entries) ∧ (∀ items, current ≠ .list items) ∧
        ∀ key v, setElement current key v = .map (written [] key v) := by
  cases current with
  | map entries => exact .inl ⟨entries, rfl⟩
  | list items => exact .inr (.inl ⟨items, rfl⟩)
  | _ => exact .inr (.inr ⟨nofun, nofun, fun _ _ => rfl⟩)

/-- **What is written is read back.** An element can be written to every value with every key, and
reading with the same key gives what was written. In a map, the entries of other names keep their
values and their order; a list that stays one keeps the items at all other positions and grows by
one item at most; and the names of what is then a map are all different again. -/
theorem element_setElement (name : String) (current key v : Value) (h : current.HasDistinctNames) :
    element name (setElement current key v) key = .ok v ∧
    (setElement current key v).HasDistinctNames ∧
    (∀ entries, current = .map entries → ∃ entries', setElement current key v = .map entries' ∧
      Dictionary.others key.toText entries' = Dictionary.others key.toText entries ∧
      ∀ n, n ≠ key.toText → Dictionary.get? entries' n = Dictionary.get? entries n) ∧
    ∀ items items', current = .list items → setElement current key v = .list items' →
      ∃ p, writePosition? items.length key = some p ∧ items'[p]? = some v ∧
        (∀ i, i ≠ p → items'[i]? = items[i]?) ∧
        items.length ≤ items'.length ∧ items'.length ≤ items.length + 1 := by
  rcases setElement_cases current with ⟨entries, rfl⟩ | ⟨items, rfl⟩ | ⟨hmap, hlist, hset⟩
  · -- a map keeps its other entries
    rw [setElement_map]
    refine ⟨element_written h, nodup_names_written h, ?_, nofun⟩
    rintro _ ⟨rfl⟩
    have hothers := others_written entries key v
    exact ⟨_, rfl, hothers, fun n hn => Dictionary.get?_eq_of_others_eq hothers hn⟩
  · rcases setElement_list items key v with ⟨p, hp, hset⟩ | ⟨-, hset⟩ <;> rw [hset]
    · -- a list gets the item at the position that the key is, or becomes a map
      obtain ⟨-, -, -, hle⟩ := writePosition?_eq_some.1 hp
      refine ⟨element_placed hp, trivial, nofun, ?_⟩
      rintro _ _ ⟨rfl⟩ ⟨rfl⟩
      refine ⟨p, hp, ?_, ?_, length_placed items p v⟩
      · rw [getElem?_placed hle, if_pos rfl]
      · intro i hi
        rw [getElem?_placed hle, if_neg hi]
    · exact ⟨element_map_insert name _ key v,
        Dictionary.nodup_names_insert (nodup_names_listEntries items), nofun, nofun⟩
  · -- anything else becomes a map that had no entries before
    rw [hset]
    exact ⟨element_written List.nodup_nil, nodup_names_written List.nodup_nil,
      fun entries hc => absurd hc (hmap entries), fun items _ hc => absurd hc (hlist items)⟩

/-- An entry is taken out of a map of two. -/
theorem element_setElement_erased :
    let m : Value := .map [("a", .text "x"), ("b", .text "y")]
    m.HasDistinctNames ∧ element "m" (setElement m (.text "a") .null) (.text "a") = .ok .null := by
  intro m
  have h : m.HasDistinctNames := show ["a", "b"].Nodup by decide
  exact ⟨h, (element_setElement "m" m (.text "a") .null h).1⟩

end Value

end CommandLanguage
