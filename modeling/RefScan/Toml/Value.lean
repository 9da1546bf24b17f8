/-!
# TOML values and blocks

The values of a TOML document as they are written, and the blocks of key and value lines under
its table headers. Numbers with a fraction and dates keep their text: no key that is read here
takes one. Keys may repeat at this stage.
-/

namespace RefScan.Toml

inductive Value where
  | string (text : String)
  | integer (n : Int)
  | float (text : String)
  | boolean (b : Bool)
  | date (text : String)
  | array (items : List Value)
  /-- Written in braces. -/
  | inline (entries : List (String × Value))
  /-- Made by a key with dots; further keys with dots may add to it. -/
  | dotted (entries : List (String × Value))

abbrev Entry := String × Value

def insertAt : List String → Value → List Entry → Option (List Entry)
  | [], _, _ => none
  | [key], v, entries => some (entries ++ [(key, v)])
  | key :: next :: keys, v, entries =>
    match entries.findIdx? (·.1 = key) with
    | none => do
      let inner ← insertAt (next :: keys) v []
      some (entries ++ [(key, .dotted inner)])
    | some i =>
      match entries[i]? with
      | some (_, .dotted inner) => do
        let inner ← insertAt (next :: keys) v inner
        some (entries.set i (key, .dotted inner))
      | _ => none

/-- A table header with the lines under it. The lines before the first header have an empty one. -/
structure Block where
  header : List String := []
  /-- Written in double brackets: one table of an array. -/
  isArray : Bool := false
  entries : List Entry := []

end RefScan.Toml
