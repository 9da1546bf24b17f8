/-!
# Numbers and dates in TOML

A number starts as a word of letters, digits, hyphens and underscores. Underscores must stand
between digits. Integers have sixty-four bits. A number with a fraction or an exponent must be
small enough for a double. A word with a `T` or an inner hyphen is taken for a date, and of dates
only the outline is read.
-/

namespace RefScan.Toml

def isWordChar (c : Char) : Bool := c.isAlphanum || c == '-' || c == '_'

def word (cs : List Char) : Option (List Char × List Char) :=
  match cs.takeWhile isWordChar with
  | [] => none
  | w => some (w, cs.dropWhile isWordChar)

def digit? (base : Nat) (c : Char) : Option Nat :=
  let d := if c.isDigit then some (c.toNat - '0'.toNat)
    else if c.isLower then some (c.toNat - 'a'.toNat + 10)
    else if c.isUpper then some (c.toNat - 'A'.toNat + 10)
    else none
  d.filter (· < base)

def digitsValue (base : Nat) (cs : List Char) : Nat :=
  cs.foldl (fun n c => match digit? base c with
    | some d => n * base + d
    | none => n) 0

def hasDoubleUnderscore : List Char → Bool
  | '_' :: '_' :: _ => true
  | _ :: cs => hasDoubleUnderscore cs
  | [] => false

/-- A stretch of digits with underscores between them, at the start of a word. -/
structure Digits where
  negative : Bool
  /-- Without underscores. -/
  digits : List Char
  rest : List Char

def digits? (base : Nat) (sign leadingZeros : Bool) (cs : List Char) : Option Digits :=
  let negative := sign && cs.head? = some '-'
  let body := if negative then cs.drop 1 else cs
  let p := fun c => (digit? base c).isSome || c == '_'
  let span := body.takeWhile p
  let digits := span.filter (· != '_')
  if span.head?.all (· == '_') || span.getLast? = some '_' || hasDoubleUnderscore span then none
  else if !leadingZeros && digits.head? = some '0' && 1 < digits.length then none
  else some ⟨negative, digits, body.dropWhile p⟩

def isInt64 (n : Int) : Bool := -0x8000000000000000 ≤ n && n < 0x8000000000000000

def integer? (base : Nat) (cs : List Char) : Option Int := do
  let d ← digits? base (base = 10) (base != 10) cs
  guard d.rest.isEmpty
  let n : Int := digitsValue base d.digits
  let n := if d.negative then -n else n
  guard (isInt64 n)
  pure n

/-- The least magnitude that no finite double is nearest to. -/
def doubleLimit : Nat := (1 <<< 1024) - (1 <<< 970)

/-- Whether `n` times ten to the `e` is below the limit. Exponents that decide the matter by
themselves are not raised to. -/
def isFinite (n : Nat) (e : Int) : Bool :=
  if n = 0 then true
  else if 0 ≤ e then e ≤ 400 && n * Nat.pow 10 e.toNat < doubleLimit
  else
    let down := (-e).toNat
    (Nat.toDigits 10 n).length ≤ down || n < doubleLimit * Nat.pow 10 down

/-- The exponent behind a mantissa. With nothing behind the `e` of the word, the digits are the
next word, perhaps after a plus sign. -/
def exponent? (suffix rest : List Char) : Option (Int × List Char) :=
  match suffix with
  | [] => some (0, rest)
  | e :: more =>
    if e == 'e' || e == 'E' then
      match more with
      | [] => do
        let rest := if rest.head? = some '+' then rest.drop 1 else rest
        let (w, rest) ← word rest
        let d ← digits? 10 false true w
        guard d.rest.isEmpty
        pure (digitsValue 10 d.digits, rest)
      | _ => do
        let d ← digits? 10 true true more
        guard d.rest.isEmpty
        let n : Int := digitsValue 10 d.digits
        pure (if d.negative then -n else n, rest)
    else none

def float? (whole : List Char) (after : Option (List Char)) (rest : List Char) :
    Option (List Char) := do
  let d ← digits? 10 true false whole
  let (fraction, suffix) ← match after with
    | none => some ([], d.rest)
    | some w => do
      guard d.rest.isEmpty
      let f ← digits? 10 false true w
      pure (f.digits, f.rest)
  let (e, rest) ← exponent? suffix rest
  guard (isFinite (digitsValue 10 (d.digits ++ fraction)) (e - fraction.length))
  pure rest

inductive Number where
  | integer (n : Int)
  | float

def number? (w rest : List Char) : Option (Number × List Char) :=
  let integral := fun (base : Nat) (cs : List Char) =>
    (integer? base cs).map fun n => (Number.integer n, rest)
  match w with
  | '0' :: 'x' :: cs => integral 16 cs
  | '0' :: 'o' :: cs => integral 8 cs
  | '0' :: 'b' :: cs => integral 2 cs
  | _ =>
    if w.contains 'e' || w.contains 'E' then (float? w none rest).map fun r => (.float, r)
    else match rest with
      | '.' :: rest => do
        let (after, rest) ← word rest
        let rest ← float? w (some after) rest
        pure (.float, rest)
      | _ =>
        if ["inf", "-inf", "nan", "-nan"].contains (String.ofList w) then some (.float, rest)
        else integral 10 w

def hasPair (a b : Char) : List Char → Bool
  | x :: y :: cs => (x == a && y == b) || hasPair a b (y :: cs)
  | _ => false

def isDateWord (w : List Char) : Bool :=
  w.contains 'T' || w.contains 't' ||
    ((w.drop 1).contains '-' && !hasPair 'e' '-' w && !hasPair 'E' '-' w)

def afterMark? (mark : Char) (rest : List Char) : Option (List Char) :=
  match rest with
  | [] => some []
  | c :: cs => if c == mark then (word cs).map (·.2) else some (c :: cs)

def clock? (rest : List Char) : Option (List Char) := do
  let (_, rest) ← word rest
  guard (rest.head? = some ':')
  let (_, rest) ← word (rest.drop 1)
  let rest ← afterMark? '.' rest
  let rest ← afterMark? '+' rest
  afterMark? ':' rest

/-- The input behind a date whose first word has been read, and the colon after it if
`afterColon`. One blank may stand before the hour. -/
def date? (afterColon : Bool) (rest : List Char) : Option (List Char) :=
  let rest := match rest with
    | ' ' :: cs => ((word cs).map (·.2)).getD (' ' :: cs)
    | cs => cs
  if afterColon then clock? rest
  else match rest with
    | ':' :: cs => clock? cs
    | cs => some cs

end RefScan.Toml
