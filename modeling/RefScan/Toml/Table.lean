import RefScan.Toml.Value

/-!
# The tables of a TOML document

Headers name the place of their blocks in a tree of tables. Blocks of one table need not stand
together. A table has one block of its own at most, and a name that is a table cannot become an
array of tables later. Apart from that keys may repeat; who looks a key up decides what that means.
-/

namespace RefScan.Toml

inductive Item where
  | value (v : Value)
  | table (entries : List (String × Item))
  /-- An array of tables, with one or more of them. -/
  | tables (elements : List (List (String × Item)))

/-- The block as seen from inside the table `key`, if it belongs there. -/
def Block.within? (key : String) (b : Block) : Option Block :=
  match b.header with
  | k :: header => if k = key then some { b with header } else none
  | [] => none

def Block.startsElement (b : Block) : Bool := b.isArray && b.header.isEmpty

/-- Splits the blocks of an array into those of its tables. Each group starts with an element's
own block, which is a plain one from there on. -/
def elements : List Block → List (List Block)
  | [] => []
  | b :: bs =>
    if b.startsElement then
      ({ b with isArray := false } :: bs.takeWhile (!·.startsElement)) :: elements bs
    else elements bs

/-- Arranges blocks, whose headers start at this table. `own` tells whether the table's own block
has been met. -/
def arrange? : Nat → (own : Bool) → List Block → Option (List (String × Item))
  | _, _, [] => some []
  | 0, _, _ :: _ => none
  | n + 1, own, b :: bs =>
    match b.header with
    | [] => do
      guard (!own && !b.isArray)
      let rest ← arrange? n true bs
      pure (b.entries.map (fun (k, v) => (k, .value v)) ++ rest)
    | key :: header => do
      let inside := (b :: bs).filterMap (·.within? key)
      let item ← if b.isArray && header.isEmpty then do
          let tables ← (elements inside).mapM (arrange? n false)
          pure (Item.tables tables)
        else do
          let table ← arrange? n false inside
          pure (Item.table table)
      let rest ← arrange? n own (bs.filter (·.within? key |>.isNone))
      pure ((key, item) :: rest)

def table? (blocks : List Block) : Option (List (String × Item)) :=
  arrange? (blocks.foldl (fun n b => n + b.header.length + 1) 0) false blocks

end RefScan.Toml
