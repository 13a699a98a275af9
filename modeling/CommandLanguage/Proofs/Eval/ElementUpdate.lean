import CommandLanguage.Proofs.Eval.Compound
import CommandLanguage.Proofs.Eval.Looking
import CommandLanguage.Proofs.Value.Element

/-!
# Updates of elements

`x[e] += r`, `x[e]++` and `x[e]--` read an element and store one. An update evaluates its index each
time: once when the element is read, and once more behind the right side, when the result is stored.
`ElementUpdate` is a record of these steps.

So the index does twice what it does, and it is for the index and the right side to see to it that the
key is the same the second time. It is if the index only looks at variables and the right side leaves
these as they are (`Eval.ElementUpdate.once_of_looks`).
-/

namespace CommandLanguage

/-! ## Replacing an element

First what is done to the value that holds the elements, without any evaluation. -/

namespace Value

variable {name : String} {base key old v : Value}

/-- With `v` in the place of the element `old`, which it has under a key, a value becomes another
one: a map under the same name, and a list at the same position, counted from its start. An element
that a map does not have counts as null, and so does the one behind the last item of a list. -/
def Replaces (key old v : Value) : Value → Value → Prop
  | .map entries, new =>
    old = (Dictionary.get? entries key.toText).getD .null ∧
      new = .map (Dictionary.insert key.toText v entries)
  | .list items, new =>
    ∃ p, writePosition? items.length key = some p ∧ old = items[p]?.getD .null ∧
      new = .list (placed items p v)
  | _, _ => False

theorem element_setElement_number (name : String) (current key : Value) (n : Float) :
    element name (setElement current key (.number n)) key = .ok (.number n) := by
  rcases setElement_cases current with ⟨entries, rfl⟩ | ⟨items, rfl⟩ | ⟨-, -, hset⟩
  · exact element_map_insert name entries key _
  · rcases setElement_list items key (.number n) with ⟨p, hp, hset⟩ | ⟨-, hset⟩ <;> rw [hset]
    · exact element_placed hp
    · exact element_map_insert name _ key _
  · rw [hset]
    exact element_map_insert name [] key _

/-- A number that is stored where an element was read takes its place, unless the value is a list
and has no such position; then it becomes a map. That is so of a negative key, which reads from the
end of a list and does not write there. -/
theorem replaces_setElement {n : Float} (h : element name base key = .ok old) :
    Replaces key old (.number n) base (setElement base key (.number n)) ∨
      ∃ items, base = .list items ∧ writePosition? items.length key = none ∧
        setElement base key (.number n) =
          .map (Dictionary.insert key.toText (.number n) (listEntries items)) := by
  cases base with
  | map entries =>
    refine .inl ⟨?_, setElement_map entries key _⟩
    exact (Except.ok.inj h).symm
  | list items =>
    rcases setElement_list items key (.number n) with ⟨p, hp, hset⟩ | ⟨hp, hset⟩
    · refine .inl ⟨p, hp, ?_, hset⟩
      obtain ⟨k, hk, hkp, -⟩ := writePosition?_eq_some.1 hp
      rw [element, hk, Except.map, hkp, itemAt?_natCast] at h
      exact (Except.ok.inj h).symm
    · exact .inr ⟨items, rfl, hp, hset⟩
  | _ => cases h

end Value

namespace Eval

variable {ev : Evaluator} {s : ScopeId} {x : String} {d : Bool} {index right : Expr} {o : Operator}
  {c : Settings} {w w' : World} {old v : Value}

/-! ## The steps

An update with an operator evaluates the index, reads the element, evaluates the right side, and
evaluates the index again in order to write. What each of these steps leaves is named, so that they
can be compared. -/

/-- The steps of an update `x[index] o right` that ends with the value `v`. A step that goes wrong
ends the update, so there is a record only of updates that come to their end. -/
structure ElementUpdate (x : String) (index : Expr) (o : Operator) (right : Expr) (s : ScopeId)
    (c : Settings) (w : World) (v : Value) (w' : World) where
  /-- the value of the variable -/
  base : Value
  /-- the world when it has been read -/
  opened : World
  /-- the key under which the element is read -/
  readKey : Value
  /-- the world behind the index -/
  indexed : World
  /-- the element -/
  old : Value
  /-- the world behind the right side -/
  computed : World
  /-- the key under which the result is stored -/
  storedKey : Value
  /-- the world behind the index, the second time -/
  reindexed : World
  /-- the value of the variable then -/
  current : Value
  /-- the world when that has been read -/
  reopened : World
  reads : Reference.readValue s x c w = (.value base, opened)
  ends_index : index.Ends s c opened (.value readKey) indexed
  element : Value.element x base readKey = .ok old
  /-- `++` and `--` have no right side -/
  computes : (o.isPostfix = true ∧ computed = indexed ∧ Value.binary o old .null = .ok v) ∨
    ∃ a b, o = .compound a ∧ right.Ends s c indexed (.value b) computed ∧
      Value.arithmetic a old b = .ok v
  isNumber : ∃ n, v = .number n
  ends_index_again : index.Ends s c computed (.value storedKey) reindexed
  reads_again : Reference.readValue s x c reindexed = (.value current, reopened)
  stores : w' = { reopened with
    scopes := reopened.scopes.assign s x (current.setElement storedKey v) }

theorem readValue_apply {w₁ : World} {found : Option Value}
    (h : Run.read s x c w = (.value found, w₁)) :
    Reference.readValue s x c w = (.value (found.getD .null), w₁) := Run.bind_apply h

/-- What an operator that assigns computes: a postfix operator from its operand alone, and a
compound one from its right side, too, which is evaluated for it. -/
theorem operate_cases (ho : o.assigns = true)
    (h : operate ev s o old right c w = (.value v, w')) :
    (o.isPostfix = true ∧ w' = w ∧ Value.binary o old .null = .ok v) ∨
      ∃ a b, o = .compound a ∧ ev right s c w = (.value b, w') ∧ Value.arithmetic a old b = .ok v := by
  cases o with
  | increment | decrement =>
    obtain ⟨hw, hv⟩ := eq_of_ofExcept h
    exact .inl ⟨rfl, hw, hv⟩
  | compound a =>
    obtain ⟨b, w₁, hb, h⟩ := Run.exists_of_bind h
    obtain ⟨rfl, hv⟩ := eq_of_ofExcept h
    exact .inr ⟨a, b, rfl, hb, hv⟩
  | _ => cases ho

/-- What an operator that assigns computes is a number. So there is no truth value to be made a
number before it is stored, and nothing that takes an element out. -/
theorem exists_number_of_assigns (ho : o.assigns = true)
    (h : operate ev s o old right c w = (.value v, w')) : ∃ n, v = .number n := by
  rcases operate_cases ho h with ⟨hafter, -, hv⟩ | ⟨a, b, -, -, hv⟩
  · cases o with
    | increment => exact Value.exists_number_of_arithmetic (a := .add) hv
    | decrement => exact Value.exists_number_of_arithmetic (a := .subtract) hv
    | _ => cases hafter
  · exact Value.exists_number_of_arithmetic hv

/-- What an operator that assigns writes back to an element, which is a number. -/
theorem writeBack_element {n : Float} {u : Unit} (ho : o.assigns = true)
    (h : writeBack ev s o (.element x d index) (.number n) c w = (.value u, w')) :
    ∃ key w₁ current w₂, ev index s c w = (.value key, w₁) ∧
      Reference.readValue s x c w₁ = (.value current, w₂) ∧
      w' = { w₂ with scopes := w₂.scopes.assign s x (current.setElement key (.number n)) } := by
  rw [writeBack, Run.bind_apply rfl, if_pos (isStored_of_assigns ho _)] at h
  obtain ⟨key, w₁, hkey, h⟩ := Run.exists_of_bind h
  obtain ⟨found, w₂, hread, h⟩ := Run.exists_of_bind h
  cases h
  exact ⟨key, w₁, found.getD .null, w₂, hkey, readValue_apply hread, rfl⟩

/-- An update of an element that ends with a value goes through these steps. -/
theorem exists_elementUpdate (ho : o.assigns = true)
    (h : (Expr.binary o (.element x d index) right).Ends s c w (.value v) w') :
    Nonempty (ElementUpdate x index o right s c w v w') := by
  obtain ⟨-, fuel, h⟩ := h
  match fuel with
  | 0 | 1 => cases h
  | fuel + 2 =>
    -- the run in its three parts: reading the left side, computing, writing back
    obtain ⟨old, w₁, hold, h⟩ := Run.exists_of_bind h
    obtain ⟨v, computed, hv, h⟩ := Run.exists_of_bind h
    obtain ⟨_, w₂, hback, h⟩ := Run.exists_of_bind h
    cases h
    -- reading is looking up the variable, then the index, then the element
    obtain ⟨found, opened, hread, hold⟩ := Run.exists_of_bind hold
    obtain ⟨readKey, indexed, hkey, hold⟩ := Run.exists_of_bind hold
    obtain ⟨rfl, helement⟩ := eq_of_ofExcept hold
    obtain ⟨n, rfl⟩ := exists_number_of_assigns ho hv
    -- and writing back does the first two of these again
    obtain ⟨storedKey, reindexed, current, reopened, hkey', hread', hstores⟩ :=
      writeBack_element ho hback
    refine ⟨{
      base := found.getD .null, opened, readKey, indexed := w₁, old, computed, storedKey,
      reindexed, current, reopened
      reads := readValue_apply hread
      ends_index := ⟨trivial, fuel, hkey⟩
      element := helement
      computes := ?_
      isNumber := ⟨n, rfl⟩
      ends_index_again := ⟨trivial, fuel + 1, hkey'⟩
      reads_again := hread'
      stores := hstores }⟩
    exact (operate_cases ho hv).imp_right fun ⟨a, b, hoa, hb, hab⟩ =>
      ⟨a, b, hoa, ⟨trivial, fuel + 1, hb⟩, hab⟩

/-! ## One element or two

The element that is written is the one that was read if the index comes out the same both times. It
need not, as it is evaluated in the world that the first evaluation and the right side have left. -/

namespace ElementUpdate

variable (u : ElementUpdate x index o right s c w v w')

/-- The value of the variable in the end. -/
def after : Value := u.current.setElement u.storedKey v

/-- The index gives the key once and for all: the second time it gives the same one, and does
nothing. It is allowed to do something the first time. -/
def Once : Prop := u.storedKey = u.readKey ∧ u.reindexed = u.computed

theorem once_iff : u.Once ↔ index.Ends s c u.computed (.value u.readKey) u.computed := by
  constructor
  · rintro ⟨hkey, hworld⟩
    have hagain := u.ends_index_again
    rwa [hkey, hworld] at hagain
  · intro h
    obtain ⟨hkey, hworld⟩ := u.ends_index_again.unique h
    exact ⟨Outcome.value.inj hkey, hworld⟩

/-- An index that only looks at variables is the same the second time, and does nothing at all, if
there is no right side or it leaves these variables as they are. Everything else may have changed in
between, the value that holds the elements included. -/
theorem once_of_looks {names : List String}
    (hindex : index.Everywhere (Expr.LooksAt c.writeBack names))
    (hright : o.isPostfix = true ∨ u.opened.AgreesOn s names u.computed) :
    u.indexed = u.opened ∧ u.Once := by
  have hindexed : u.indexed = u.opened := (u.ends_index.of_looks hindex fun _ _ => rfl).1
  have hagrees : u.opened.AgreesOn s names u.computed := by
    rcases hright with hafter | hright
    · rcases u.computes with ⟨-, hcomputed, -⟩ | ⟨a, b, rfl, -⟩
      · rw [hcomputed, hindexed]
        intro _ _
        rfl
      · cases hafter
    · exact hright
  exact ⟨hindexed, u.once_iff.2 (u.ends_index.of_looks hindex hagrees).2⟩

/-- What is stored is read under the same key. A negative key of a list has made a map of it, in
which it is a name. -/
theorem element_after : Value.element x u.after u.storedKey = .ok v := by
  obtain ⟨n, rfl⟩ := u.isNumber
  exact Value.element_setElement_number x u.current u.storedKey n

/-- If the key is the same, and so is the value of the variable, then the result takes the place of
the element that was read, unless a list has no such position, counted from its start. -/
theorem replaces (hkey : u.storedKey = u.readKey) (hcurrent : u.current = u.base) :
    Value.Replaces u.readKey u.old v u.base u.after ∨
      ∃ items, u.base = .list items ∧ Value.writePosition? items.length u.readKey = none ∧
        u.after = .map (Dictionary.insert u.readKey.toText v (Value.listEntries items)) := by
  obtain ⟨n, rfl⟩ := u.isNumber
  rw [after, hkey, hcurrent]
  exact Value.replaces_setElement u.element

end ElementUpdate

/-- **An update reads and stores the same element if its index is the same both times.** Whenever
`x[index] op= right`, `x[index]++` or `x[index]--` ends with a value, it has gone through the steps of
an `ElementUpdate`, and

* the key under which the result is stored is the one under which the element was read, and the index
  does nothing but once, if and only if behind the right side it ends with the same key again and
  leaves the world as it is;
* this is so for every index that only looks at variables, if there is no right side or it leaves
  these variables as they are; such an index does nothing the first time, either;
* reading what was stored with the key it was stored under gives the result;
* if the key is the same and the variable still has the value that was read, then the result takes
  the place of the element, and nothing else is changed; only a list that has no such position,
  counted from its start, becomes a map in which the result has the key for its name. -/
theorem update_element (ho : o.assigns = true)
    (h : (Expr.binary o (.element x d index) right).Ends s c w (.value v) w') :
    ∃ u : ElementUpdate x index o right s c w v w',
      (u.storedKey = u.readKey ∧ u.reindexed = u.computed ↔
        index.Ends s c u.computed (.value u.readKey) u.computed) ∧
      (∀ names, index.Everywhere (Expr.LooksAt c.writeBack names) →
        o.isPostfix = true ∨ u.opened.AgreesOn s names u.computed →
          u.indexed = u.opened ∧ u.storedKey = u.readKey ∧ u.reindexed = u.computed) ∧
      Value.element x u.after u.storedKey = .ok v ∧
      (u.storedKey = u.readKey → u.current = u.base →
        Value.Replaces u.readKey u.old v u.base u.after ∨
          ∃ items, u.base = .list items ∧ Value.writePosition? items.length u.readKey = none ∧
            u.after = .map (Dictionary.insert u.readKey.toText v (Value.listEntries items))) := by
  obtain ⟨u⟩ := exists_elementUpdate ho h
  exact ⟨u, u.once_iff, fun names hindex hright => u.once_of_looks hindex hright, u.element_after,
    u.replaces⟩

/-- An element of a map is updated, with a text for its key. -/
theorem update_element_text :
    let index : Expr := .text "k" (.quoted .double)
    let e : Expr := .binary (.compound .add) (.element "m" false index) (.number 2)
    let w : World := { scopes := Scopes.root.define 0 "m" (.map [("k", .number 1)]) }
    Operator.assigns (.compound .add) = true ∧ ∃ v w', e.Ends 0 {} w (.value v) w' ∧
      ∃ u : ElementUpdate "m" index (.compound .add) (.number 2) 0 {} w v w',
        u.storedKey = u.readKey ∧ u.reindexed = u.computed := by
  intro index e w
  obtain ⟨v, h⟩ : ∃ v, e.Ends 0 {} w (.value v) (evaluateFrom 3 e 0 {} w).2 :=
    Expr.ends_of_hasValue (by decide +kernel)
  have hindex : index.Everywhere (Expr.LooksAt .assignments []) := .leaf (fun _ => rfl) rfl
  obtain ⟨u, -, hlooks, -⟩ := update_element rfl h
  exact ⟨rfl, v, _, h, u, (hlooks [] hindex (.inr nofun)).2⟩

/-- The right side changes the variable that the index looks at: the element `1` is read, and the sum
is stored in the element `2`. -/
theorem update_element_moves :
    let e : Expr := .binary (.compound .add) (.element "m" false (.variable "i" true))
      (.assign (.variable "i" false) (.text "2" (.quoted .double)))
    let σ := Scopes.root.define 0 "i" (.text "1")
    let w : World := { scopes := σ.define 0 "m" (.map [("1", .number 10), ("2", .number 20)]) }
    let item (w : World) (key : String) : Option Float := do
      let m ← w.scopes.get? 0 "m"
      let v ← (Value.element "m" m (.text key)).toOption
      v.toNumber.toOption
    item w "1" = some 10 ∧ item w "2" = some 20 ∧
      ∃ v w', e.Ends 0 {} w (.value v) w' ∧ item w' "1" = some 10 ∧ item w' "2" = some (10 + 2) := by
  intro e σ w item
  obtain ⟨v, h⟩ : ∃ v, e.Ends 0 {} w (.value v) (evaluateFrom 3 e 0 {} w).2 :=
    Expr.ends_of_hasValue (by decide +kernel)
  exact ⟨by decide +kernel, by decide +kernel, v, _, h, by decide +kernel, by decide +kernel⟩

end Eval

end CommandLanguage
