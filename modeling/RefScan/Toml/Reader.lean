import RefScan.Toml.Number
import RefScan.Toml.Quoted
import RefScan.Toml.Value

/-!
# Reading TOML

Readers take the input from some point on and give what they read with the rest, or nothing if
the input is not TOML. `Toml.read?` reads a whole text into its blocks. The readers of nested
values and of lines are limited by a count that the length of the input bounds.
-/

namespace RefScan.Toml

def isCommentChar (c : Char) : Bool := c == '\t' || 0x20 ≤ c.toNat

def skipBlanks (cs : List Char) : List Char := cs.dropWhile isBlank

def gap (inComment : Bool) : List Char → Option (List Char)
  | [] => some []
  | c :: cs =>
    if c == '\n' then gap false cs
    else if inComment then if isCommentChar c then gap true cs else none
    else if isBlank c then gap false cs
    else if c == '#' then gap true cs
    else some (c :: cs)

def lineEnd? (cs : List Char) : Option (List Char) :=
  let rest := match skipBlanks cs with
    | '#' :: rest => rest.dropWhile isCommentChar
    | rest => rest
  match rest with
  | [] => some []
  | '\n' :: rest => some rest
  | _ => none

def keyPart? (cs : List Char) : Option (String × List Char) :=
  let quotedKey := fun (quote : Char) (cs : List Char) => do
    let q ← quoted? quote cs
    guard !q.multiline
    pure (q.text, q.rest)
  match cs with
  | '"' :: cs => quotedKey '"' cs
  | '\'' :: cs => quotedKey '\'' cs
  | _ => (word cs).map fun (w, rest) => (String.ofList w, rest)

/-- Key parts with dots between them, and the input behind them and any blanks. -/
def key? : Nat → List Char → Option (List String × List Char)
  | 0, _ => none
  | n + 1, cs => do
    let (part, rest) ← keyPart? cs
    match skipBlanks rest with
    | '.' :: rest =>
      let (parts, rest) ← key? n (skipBlanks rest)
      pure (part :: parts, rest)
    | rest => pure ([part], rest)

def assignment? (n : Nat) (cs : List Char) : Option (List String × List Char) := do
  let (key, rest) ← key? n cs
  guard (rest.head? = some '=')
  pure (key, skipBlanks (rest.drop 1))

def Number.value : Number → List Char → Value
  | .integer n, _ => .integer n
  | .float, w => .float (String.ofList w)

def wordValue? (w rest : List Char) : Option (Value × List Char) :=
  if w = "true".toList then some (.boolean true, rest)
  else if w = "false".toList then some (.boolean false, rest)
  else if w = "inf".toList || w = "nan".toList || w.head?.any (fun c => c == '-' || c.isDigit) then
    if isDateWord w then (date? false rest).map fun r => (.date (String.ofList w), r)
    else match rest with
      | ':' :: rest => (date? true rest).map fun r => (.date (String.ofList w), r)
      | _ => (number? w rest).map fun (x, r) => (x.value w, r)
  else none

mutual

def value? : Nat → List Char → Option (Value × List Char)
  | 0, _ => none
  | n + 1, cs =>
    match cs with
    | '"' :: cs => (quoted? '"' cs).map fun q => (.string q.text, q.rest)
    | '\'' :: cs => (quoted? '\'' cs).map fun q => (.string q.text, q.rest)
    | '[' :: cs => (items? n cs).map fun (vs, rest) => (.array vs, rest)
    | '\x7b' :: cs =>
      match skipBlanks cs with
      | '\x7d' :: rest => some (.inline [], rest)
      | cs => (pairs? n [] cs).map fun (entries, rest) => (.inline entries, rest)
    | '+' :: cs => do
      let (w, rest) ← word cs
      let (x, rest) ← number? w rest
      pure (x.value w, rest)
    | _ => do
      let (w, rest) ← word cs
      wordValue? w rest

def items? : Nat → List Char → Option (List Value × List Char)
  | 0, _ => none
  | n + 1, cs => do
    match ← gap false cs with
    | ']' :: rest => pure ([], rest)
    | cs =>
      let (v, rest) ← value? n cs
      match ← gap false rest with
      | ',' :: rest =>
        let (vs, rest) ← items? n rest
        pure (v :: vs, rest)
      | ']' :: rest => pure ([v], rest)
      | _ => none

def pairs? : Nat → List Entry → List Char → Option (List Entry × List Char)
  | 0, _, _ => none
  | n + 1, entries, cs => do
    let (key, cs) ← assignment? n cs
    let (v, rest) ← value? n cs
    let entries ← insertAt key v entries
    match skipBlanks rest with
    | '\x7d' :: rest => pure (entries, rest)
    | ',' :: rest => pairs? n entries (skipBlanks rest)
    | _ => none

end

def header? (n : Nat) (cs : List Char) : Option (Block × List Char) := do
  let isArray := cs.head? = some '['
  let cs := if isArray then cs.drop 1 else cs
  let (key, rest) ← key? n (skipBlanks cs)
  let closing := if isArray then [']', ']'] else [']']
  guard (closing.isPrefixOf rest)
  let rest ← lineEnd? (rest.drop closing.length)
  pure ({ header := key, isArray }, rest)

def blocks? : Nat → Block → List Char → Option (List Block)
  | 0, _, _ => none
  | n + 1, block, cs => do
    match ← gap false cs with
    | [] => pure [block]
    | '[' :: cs =>
      let (next, rest) ← header? (n + 1) cs
      let blocks ← blocks? n next rest
      pure (block :: blocks)
    | cs =>
      let (key, cs) ← assignment? (n + 1) cs
      let (v, rest) ← value? (2 * n + 2) cs
      let rest ← lineEnd? rest
      let entries ← insertAt key v block.entries
      blocks? n { block with entries } rest

def foldLineEnds : List Char → List Char
  | '\r' :: '\n' :: cs => '\n' :: foldLineEnds cs
  | c :: cs => c :: foldLineEnds cs
  | [] => []

def dropMark : List Char → List Char
  | '\uFEFF' :: cs => cs
  | cs => cs

def read? (text : String) : Option (List Block) :=
  let cs := foldLineEnds (dropMark text.toList)
  blocks? (cs.length + 1) {} cs

end RefScan.Toml
