import CommandLanguage.Value.Basic

/-!
# Elements of values

Reading and writing the elements of lists and maps. A list has integers as keys, counted from
zero, or when reading from its end if they are negative; a map has texts. Writing to a key that a
list cannot have makes a map of the list, and writing to anything else begins a new map.
-/

namespace CommandLanguage.Value

/-- The element of a list at a position, which is counted from the end if it is negative. -/
def itemAt? (items : List Value) (i : Int) : Option Value :=
  let i := if i < 0 then items.length + i else i
  if i < 0 then none else items[i.toNat]?

/-- Reads an element. A list or map without it gives nothing; other values have no elements, and
`name` is how the value is called in the fault that says so. -/
def element (name : String) (base key : Value) : Except Fault Value :=
  match base with
  | .list items => key.toInteger.map fun i => (itemAt? items i.toInt).getD .null
  | .map entries => .ok ((Dictionary.get? entries key.toText).getD .null)
  | _ => .error (.notIndexable name)

/-- A list as a map from its positions. -/
def listEntries (items : List Value) : List (String × Value) :=
  items.zipIdx.map fun (v, i) => (Decimal.integer i, v)

/-- The position that a key writes to in a list of `n` items: one of them, or the place right
behind the last. -/
def writePosition? (n : Nat) (key : Value) : Option Nat :=
  match key.toInteger with
  | .ok i => if 0 ≤ i.toInt && i.toInt ≤ n then some i.toInt.toNat else none
  | .error _ => none

/-- Writes an element and gives the value that then holds it. Writing nothing takes an entry out
of a map. -/
def setElement (current key value : Value) : Value :=
  match current with
  | .map entries =>
    if value.isNull then .map (Dictionary.erase key.toText entries)
    else .map (Dictionary.insert key.toText value entries)
  | .list items =>
    match writePosition? items.length key with
    | some i => .list (if i < items.length then items.set i value else items ++ [value])
    | none => .map (Dictionary.insert key.toText value (listEntries items))
  | _ => .map (if value.isNull then [] else [(key.toText, value)])

end CommandLanguage.Value
