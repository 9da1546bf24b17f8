/-!
# Quoted text in TOML

Text in double quotes has escapes, text in single quotes none; both may stand in triple quotes and
then span lines. Line ends have been reduced to line feeds before.
-/

namespace RefScan.Toml

def isBlank (c : Char) : Bool := c == ' ' || c == '\t'

def isTextChar (c : Char) : Bool := c == '\t' || (0x20 ≤ c.toNat && c.toNat != 0x7F)

def hexDigit? (c : Char) : Option Nat :=
  if c.isDigit then some (c.toNat - '0'.toNat)
  else if 'a' ≤ c && c ≤ 'f' then some (c.toNat - 'a'.toNat + 10)
  else if 'A' ≤ c && c ≤ 'F' then some (c.toNat - 'A'.toNat + 10)
  else none

def hexChar? (n : Nat) (cs : List Char) : Option Char := do
  let digits ← (cs.take n).mapM hexDigit?
  guard (digits.length = n)
  let value := digits.foldl (fun v d => v * 16 + d) 0
  guard value.isValidChar
  pure (Char.ofNat value)

/-- How many characters a backslash at the end of a line hides: all blanks and line ends behind
it, of which the first line end follows on blanks only. -/
def continuation? (cs : List Char) : Option Nat :=
  let blanks := cs.takeWhile isBlank
  match cs.drop blanks.length with
  | '\n' :: rest =>
    some (blanks.length + 1 + (rest.takeWhile fun c => isBlank c || c == '\n').length)
  | _ => none

def escape? (multiline : Bool) (cs : List Char) : Option (List Char × Nat) :=
  match cs with
  | [] => none
  | '"' :: _ => some (['"'], 1)
  | '\\' :: _ => some (['\\'], 1)
  | 'b' :: _ => some (['\x08'], 1)
  | 'f' :: _ => some (['\x0C'], 1)
  | 'n' :: _ => some (['\n'], 1)
  | 'r' :: _ => some (['\r'], 1)
  | 't' :: _ => some (['\t'], 1)
  | 'u' :: rest => (hexChar? 4 rest).map fun c => ([c], 5)
  | 'U' :: rest => (hexChar? 8 rest).map fun c => ([c], 9)
  | _ => if multiline then (continuation? cs).map fun n => ([], n) else none

def lineText (quote : Char) (skip : Nat) : List Char → Option (List Char × List Char)
  | [] => none
  | c :: cs =>
    match skip with
    | skip + 1 => lineText quote skip cs
    | 0 =>
      if c == quote then some ([], cs)
      else if c == '\\' && quote == '"' then do
        let (text, n) ← escape? false cs
        let (more, rest) ← lineText quote n cs
        pure (text ++ more, rest)
      else if isTextChar c then do
        let (more, rest) ← lineText quote 0 cs
        pure (c :: more, rest)
      else none

/-- Reads up to three closing quotes, passing over `skip` characters first. One or two quotes are
text, and so are up to two that stand before the closing three. -/
def blockText (quote : Char) (skip : Nat) : List Char → Option (List Char × List Char)
  | [] => none
  | c :: cs =>
    match skip with
    | skip + 1 => blockText quote skip cs
    | 0 =>
      if c == quote then
        let quotes := 1 + (cs.takeWhile (· == quote)).length
        if quotes < 3 then do
          let (more, rest) ← blockText quote (quotes - 1) cs
          pure (List.replicate quotes quote ++ more, rest)
        else
          let extra := min (quotes - 3) 2
          some (List.replicate extra quote, cs.drop (extra + 2))
      else if c == '\\' && quote == '"' then do
        let (text, n) ← escape? true cs
        let (more, rest) ← blockText quote n cs
        pure (text ++ more, rest)
      else if c == '\n' || isTextChar c then do
        let (more, rest) ← blockText quote 0 cs
        pure (c :: more, rest)
      else none

structure Quoted where
  text : String
  multiline : Bool
  rest : List Char

/-- Reads quoted text behind its first quote. A line end right behind triple quotes is dropped. -/
def quoted? (quote : Char) (cs : List Char) : Option Quoted :=
  match cs with
  | a :: b :: rest =>
    if a == quote && b == quote then
      let rest := if rest.head? = some '\n' then rest.drop 1 else rest
      (blockText quote 0 rest).map fun (text, rest) => ⟨String.ofList text, true, rest⟩
    else (lineText quote 0 cs).map fun (text, rest) => ⟨String.ofList text, false, rest⟩
  | _ => (lineText quote 0 cs).map fun (text, rest) => ⟨String.ofList text, false, rest⟩

end RefScan.Toml
