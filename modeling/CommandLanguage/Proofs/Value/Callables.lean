import CommandLanguage.Value.Element

/-!
# Functions and commands in values

A value can hold functions and commands at any depth: in a list, in a map, in a list in a map.

* `Value.callables` — all of them;
* `Value.AllCallables p` — each of them has the property `p`.

Taking values apart and putting them together makes no function and no command, so a property
that all of them have is kept by everything that is done with elements.
-/

namespace CommandLanguage

namespace Value

mutual

/-- The functions and commands in a value, at any depth. A function is not looked into: what it
holds is an expression, and there are no values in expressions. -/
def callables : Value → List Value
  | .null | .boolean _ | .number _ | .text _ => []
  | .list items => listCallables items
  | .map entries => entryCallables entries
  | .function c => [.function c]
  | .command c => [.command c]

/-- The functions and commands in several values. -/
def listCallables : List Value → List Value
  | [] => []
  | v :: vs => v.callables ++ listCallables vs

/-- The functions and commands in the values of a map. -/
def entryCallables : List (String × Value) → List Value
  | [] => []
  | (_, v) :: es => v.callables ++ entryCallables es

end

/-- A value in which every function and every command has the property `p`. Values can hold
functions in lists and maps, at any depth, and a script can take them out again. -/
def AllCallables (p : Value → Prop) (v : Value) : Prop := ∀ f ∈ v.callables, p f

variable {p : Value → Prop}

@[simp] theorem allCallables_null : AllCallables p .null := fun _ h => nomatch h

@[simp] theorem allCallables_boolean (b : Bool) : AllCallables p (.boolean b) :=
  fun _ h => nomatch h

@[simp] theorem allCallables_number (n : Float) : AllCallables p (.number n) :=
  fun _ h => nomatch h

@[simp] theorem allCallables_text (s : String) : AllCallables p (.text s) :=
  fun _ h => nomatch h

@[simp] theorem allCallables_function {c : Closure} :
    AllCallables p (.function c) ↔ p (.function c) := by simp [AllCallables, callables]

@[simp] theorem allCallables_command {c : Command} :
    AllCallables p (.command c) ↔ p (.command c) := by simp [AllCallables, callables]

@[simp] theorem allCallables_list {items : List Value} :
    AllCallables p (.list items) ↔ ∀ v ∈ items, v.AllCallables p := by
  simp only [AllCallables, callables]
  induction items with
  | nil => simp [listCallables]
  | cons v vs ih =>
    simp only [listCallables, List.mem_append, or_imp, forall_and, List.forall_mem_cons, ih]

@[simp] theorem allCallables_map {entries : List (String × Value)} :
    AllCallables p (.map entries) ↔ ∀ e ∈ entries, e.2.AllCallables p := by
  simp only [AllCallables, callables]
  induction entries with
  | nil => simp [entryCallables]
  | cons e es ih =>
    simp only [entryCallables, List.mem_append, or_imp, forall_and, List.forall_mem_cons, ih]

/-! ## Elements -/

theorem allCallables_getD_null {v : Option Value} (h : ∀ x, v = some x → x.AllCallables p) :
    (v.getD .null).AllCallables p := by
  cases v with
  | none => exact allCallables_null
  | some x => exact h x rfl

theorem mem_of_itemAt? {items : List Value} {i : Int} {v : Value} (h : itemAt? items i = some v) :
    v ∈ items := by
  simp only [itemAt?] at h
  generalize (if i < 0 then (items.length : Int) + i else i) = j at h
  split at h
  · cases h
  · exact List.mem_of_getElem? h

/-- What is read from a value was in it. -/
theorem allCallables_element {name : String} {base key v : Value} (hb : base.AllCallables p)
    (h : element name base key = .ok v) : v.AllCallables p := by
  unfold element at h
  -- an element of a list, then one of a map; nothing else has elements
  split at h
  · rename_i items
    cases hk : key.toInteger with
    | error e => rw [hk] at h; cases h
    | ok i =>
      rw [hk] at h
      cases h
      exact allCallables_getD_null fun x hx => allCallables_list.1 hb x (mem_of_itemAt? hx)
  · rename_i entries
    cases h
    exact allCallables_getD_null fun x hx =>
      allCallables_map.1 hb _ (Dictionary.mem_of_get? hx)
  · cases h

theorem allCallables_of_mem_listEntries {items : List Value} (h : ∀ v ∈ items, v.AllCallables p) :
    ∀ e ∈ listEntries items, e.2.AllCallables p := by
  intro e he
  obtain ⟨⟨v, i⟩, hx, rfl⟩ := List.mem_map.1 he
  exact h v (List.fst_mem_of_mem_zipIdx hx)

theorem allCallables_of_mem_insert {entries : List (String × Value)} {name : String} {v : Value}
    (h : ∀ e ∈ entries, e.2.AllCallables p) (hv : v.AllCallables p) :
    ∀ e ∈ Dictionary.insert name v entries, e.2.AllCallables p := by
  intro e he
  rcases Dictionary.mem_insert he with rfl | he
  · exact hv
  · exact h e he

/-- What a value holds after writing an element was in it or was written. That is so also if a list
becomes a map, or if the value is thrown away for a new one. -/
theorem allCallables_setElement {current key v : Value} (hc : current.AllCallables p)
    (hv : v.AllCallables p) : (current.setElement key v).AllCallables p := by
  unfold setElement
  -- into a map, into a list, and into what has no elements yet
  split
  · rename_i entries
    have hes := allCallables_map.1 hc
    split
    · exact allCallables_map.2 fun e he => hes e (Dictionary.mem_of_mem_erase he)
    · exact allCallables_map.2 (allCallables_of_mem_insert hes hv)
  · rename_i items
    have hvs := allCallables_list.1 hc
    -- the list stays one for an index in it or at its end, and becomes a map for any other key
    split
    · refine allCallables_list.2 fun x hx => ?_
      split at hx
      · rcases List.mem_or_eq_of_mem_set hx with hx | rfl
        · exact hvs x hx
        · exact hv
      · rcases List.mem_append.1 hx with hx | hx
        · exact hvs x hx
        · rw [List.mem_singleton.1 hx]; exact hv
    · exact allCallables_map.2 (allCallables_of_mem_insert (allCallables_of_mem_listEntries hvs) hv)
  · refine allCallables_map.2 fun e he => ?_
    split at he
    · cases he
    · rw [List.mem_singleton.1 he]; exact hv

/-! ## Views -/

theorem allCallables_truthAsNumber {v : Value} (h : v.AllCallables p) :
    v.truthAsNumber.AllCallables p := by
  cases v with
  | boolean b => exact allCallables_number _
  | _ => exact h

theorem allCallables_of_mem_spread {v x : Value} (h : v.AllCallables p) (hx : x ∈ v.spread) :
    x.AllCallables p := by
  cases v with
  | list items => exact allCallables_list.1 h x hx
  | _ => rw [List.mem_singleton.1 hx]; exact h

theorem allCallables_of_mem_items {v x : Value} (h : v.AllCallables p) (hx : x ∈ v.items) :
    x.AllCallables p := by
  cases v with
  | null => cases hx
  | list items => exact allCallables_list.1 h x hx
  | map entries =>
    obtain ⟨e, he, rfl⟩ := List.mem_map.1 hx
    exact allCallables_map.1 h e he
  | _ => rw [List.mem_singleton.1 hx]; exact h

end Value

end CommandLanguage
