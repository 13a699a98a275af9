import CommandLanguage.Proofs.Value.Element

/-!
# Taking elements out

To write nothing to an element is how one is taken out. What is left then (`IsLeftOf`) is to be of the
same kind as before, with no more elements and no other keys. For a map it always is: the entry goes,
if there is one. A list keeps its length and has nothing at the position.

For keys that are no position in it, a list takes nothing like any other value: right behind its last
item it becomes one more item, and for all other keys the list becomes a map in which the key is
entered.
-/

namespace CommandLanguage

/-- Nothing but entries goes when a name is taken out. -/
theorem Dictionary.erase_sublist {α : Type} (name : String) (d : Dictionary α) :
    (d.erase name).Sublist d := by
  induction d with
  | nil => exact .slnil
  | cons e r ih =>
    obtain ⟨n, v⟩ := e
    rw [erase]
    split
    · exact List.sublist_cons_self _ r
    · exact ih.cons_cons _

namespace Value

variable {key : Value} {items : List Value}

/-- What is left of a list or map `before` when an element is taken out. Nothing is longer than
before, and no key is new. -/
structure IsLeftOf (after before : Value) : Prop where
  /-- it is of the same kind -/
  typeName_eq : after.typeName = before.typeName
  /-- it has no more elements -/
  size_le : after.size ≤ before.size
  /-- it has no other keys -/
  keys_subset : after.keys ⊆ before.keys

theorem isLeftOf_map {entries entries' : Dictionary Value} (h : entries'.Sublist entries) :
    IsLeftOf (.map entries') (.map entries) where
  typeName_eq := rfl
  size_le := h.length_le
  keys_subset := (h.map Prod.fst).subset

/-- What is left of a list, as to kind and keys, is a matter of its length. -/
theorem isLeftOf_list {items' : List Value} :
    IsLeftOf (.list items') (.list items) ↔ items'.length ≤ items.length := by
  constructor
  · intro h
    exact h.size_le
  · intro h
    refine ⟨rfl, h, List.map_subset _ fun i hi => ?_⟩
    rw [List.mem_range] at hi ⊢
    omega

theorem not_isLeftOf_list_of_map (entries : List (String × Value)) :
    ¬ IsLeftOf (.map entries) (.list items) := by
  intro h
  exact absurd h.typeName_eq (show "map" ≠ "list" by decide)

/-- A list is as long as before exactly if what is put into it takes the place of an item. -/
theorem length_placed_le_iff (items : List Value) (i : Nat) (v : Value) :
    (placed items i v).length ≤ items.length ↔ i < items.length := by
  rw [placed]
  split
  · rename_i hlt
    simp [hlt]
  · rename_i hge
    simp [hge]

/-- The keys that stand for an item are positions that can be written to, and all of these but the
last. -/
theorem exists_toInteger_iff : (∃ k, key.toInteger = .ok k ∧ 0 ≤ k.toInt ∧ k.toInt < items.length) ↔
    ∃ i, writePosition? items.length key = some i ∧ i < items.length := by
  constructor
  · rintro ⟨k, hk, hpos, hlt⟩
    exact ⟨k.toInt.toNat, writePosition?_eq_some.2 ⟨k, hk, by omega, by omega⟩, by omega⟩
  · rintro ⟨i, hi, hlt⟩
    obtain ⟨k, hk, hki, -⟩ := writePosition?_eq_some.1 hi
    exact ⟨k, hk, by omega, by omega⟩

/-- **Taking an element out.** Out of a map, with any key, an entry is taken or none. A list stays a
list of the same length exactly for the keys that are a position in it. With the position behind its
last item it gets one more item, and with all other keys it becomes a map, where the key has an entry
with nothing as its value. -/
theorem isLeftOf_setElement_null (key : Value) :
    (∀ entries, setElement (.map entries) key .null = .map (Dictionary.erase key.toText entries) ∧
      IsLeftOf (setElement (.map entries) key .null) (.map entries)) ∧
    ∀ items : List Value,
      (IsLeftOf (setElement (.list items) key .null) (.list items) ↔
        ∃ k, key.toInteger = .ok k ∧ 0 ≤ k.toInt ∧ k.toInt < items.length) ∧
      (∀ k, key.toInteger = .ok k → k.toInt = items.length →
        setElement (.list items) key .null = .list (items ++ [.null])) ∧
      ((∀ k, key.toInteger = .ok k → k.toInt < 0 ∨ items.length < k.toInt) →
        setElement (.list items) key .null =
          .map (Dictionary.insert key.toText .null (listEntries items))) := by
  constructor
  · -- from a map the entry is taken out
    intro entries
    have herase : setElement (.map entries) key .null =
        .map (Dictionary.erase key.toText entries) := rfl
    rw [herase]
    exact ⟨rfl, isLeftOf_map (Dictionary.erase_sublist _ entries)⟩
  · intro items
    -- a list gets the item, and is left of itself only if that takes the place of another one; or
    -- it becomes a map, which is never left of a list
    rw [exists_toInteger_iff]
    rcases setElement_list items key .null with ⟨p, hp, hset⟩ | ⟨hp, hset⟩
    · obtain ⟨k, hk, hkp, hle⟩ := writePosition?_eq_some.1 hp
      rw [hset, hp]
      refine ⟨?_, fun k' hk' hend => ?_, fun hout => ?_⟩
      · rw [isLeftOf_list, length_placed_le_iff]
        simp
      · obtain rfl : k = k' := Except.ok.inj (hk.symm.trans hk')
        rw [placed, if_neg (by omega)]
      · have := hout k hk
        omega
    · rw [hset, hp]
      refine ⟨?_, fun k hk hend => ?_, fun _ => rfl⟩
      · simp [not_isLeftOf_list_of_map]
      · have hposition : writePosition? items.length key = some items.length :=
          writePosition?_eq_some.2 ⟨k, hk, hend, Nat.le_refl _⟩
        rw [hp] at hposition
        cases hposition

/-- An element that a list does not have is taken out of it, and the list becomes a map with one more
entry. -/
theorem setElement_null_grows :
    let items : List Value := [.text "a"]
    setElement (.list items) (.text "x") .null = .map [("0", .text "a"), ("x", .null)] ∧
      ¬ IsLeftOf (setElement (.list items) (.text "x") .null) (.list items) := by
  intro items
  have hposition : writePosition? 1 (.text "x") = none := by decide +kernel
  rcases setElement_list items (.text "x") .null with ⟨p, hp, -⟩ | ⟨-, hset⟩
  · cases hposition.symm.trans hp
  · have hmap : setElement (.list items) (.text "x") .null =
        .map [("0", .text "a"), ("x", .null)] := by
      rw [hset]
      rfl
    rw [hmap]
    exact ⟨rfl, not_isLeftOf_list_of_map _⟩

end Value

end CommandLanguage
