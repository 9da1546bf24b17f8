/-!
# JSON output

JSON values and their text over several lines: two blanks of indentation for each level, one item
or member a line, empty arrays and objects closed at once. Characters outside ASCII stay as they
are.
-/

namespace RefScan

inductive Json where
  | text (s : String)
  | number (n : Nat)
  | array (items : List Json)
  | object (members : List (String × Json))

namespace Json

def texts (xs : List String) : Json := .array (xs.map .text)

def hexDigit (n : Nat) : Char := (Nat.digitChar n)

def escape (c : Char) : List Char :=
  if c = '"' then ['\\', '"']
  else if c = '\\' then ['\\', '\\']
  else if c = '\n' then ['\\', 'n']
  else if c = '\r' then ['\\', 'r']
  else if c = '\t' then ['\\', 't']
  else if c = '\x08' then ['\\', 'b']
  else if c = '\x0C' then ['\\', 'f']
  else if c.toNat < 0x20 then
    ['\\', 'u', '0', '0', hexDigit (c.toNat / 16), hexDigit (c.toNat % 16)]
  else [c]

def quoted (s : String) : String :=
  String.ofList ('"' :: s.toList.flatMap escape ++ ['"'])

def indentation (level : Nat) : String := String.ofList (List.replicate (2 * level) ' ')

def bracketed (opening closing : String) (level : Nat) (lines : List String) : String :=
  if lines.isEmpty then opening ++ closing
  else
    let indented := lines.map (indentation (level + 1) ++ ·)
    opening ++ "\n" ++ ",\n".intercalate indented ++ "\n" ++ indentation level ++ closing

mutual

def renderAt (level : Nat) : Json → String
  | .text s => quoted s
  | .number n => toString n
  | .array items => bracketed "[" "]" level (renderItems (level + 1) items)
  | .object members => bracketed "\x7b" "\x7d" level (renderMembers (level + 1) members)

def renderItems (level : Nat) : List Json → List String
  | [] => []
  | item :: items => renderAt level item :: renderItems level items

def renderMembers (level : Nat) : List (String × Json) → List String
  | [] => []
  | (key, v) :: members =>
    (quoted key ++ ": " ++ renderAt level v) :: renderMembers level members

end

def render (j : Json) : String := renderAt 0 j

end Json

end RefScan
