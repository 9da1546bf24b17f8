import RefScan.Text

/-!
# Paths

A path is a text with slashes. Nothing is looked up here: these are operations on the text and on
the components in it. Repeated slashes, slashes at the end and dots after the first component are
no components.
-/

namespace RefScan

structure Path where
  text : String
deriving DecidableEq, Repr

namespace Path

inductive Component where
  | root
  | current
  | parent
  | named (name : List Char)
deriving DecidableEq, Repr

def chars (p : Path) : List Char := p.text.toList

instance : ToString Path := ⟨Path.text⟩

def isAbsolute (p : Path) : Bool := p.chars.head? = some '/'

def pieces (p : Path) : List (List Char) := Text.fields '/' p.chars

def isIdle (piece : List Char) : Bool := piece = [] || piece = ['.']

def component? (piece : List Char) : Option Component :=
  if isIdle piece then none
  else if piece = ['.', '.'] then some .parent
  else some (.named piece)

/-- The start of a path that its components after the first do not show. -/
def lead (p : Path) : List Char :=
  match p.chars with
  | '/' :: _ => ['/']
  | ['.'] => ['.']
  | '.' :: '/' :: _ => ['.']
  | _ => []

def body (p : Path) : List (List Char) := Text.fields '/' (p.chars.drop p.lead.length)

def components (p : Path) : List Component :=
  (match p.lead with
    | ['/'] => [.root]
    | ['.'] => [.current]
    | _ => []) ++ p.body.filterMap component?

def trimEnd (pieces : List (List Char)) : List (List Char) :=
  (pieces.reverse.dropWhile isIdle).reverse

/-- The path without its last component; none if that is the root or there is no component. -/
def parent? (p : Path) : Option Path :=
  match trimEnd p.body with
  | [] => if p.lead = ['.'] then some ⟨""⟩ else none
  | pieces => some ⟨String.ofList (p.lead ++ Text.joined '/' (trimEnd pieces.dropLast))⟩

/-- A path seen from `p`. An absolute one stays as it is; an empty `p` adds nothing. -/
def join (p q : Path) : Path :=
  if q.isAbsolute then q
  else if p.chars.isEmpty || p.chars.getLast? = some '/' then ⟨p.text ++ q.text⟩
  else ⟨p.text ++ "/" ++ q.text⟩

def relativeTo? (p base : Path) : Option (List Component) :=
  if base.components.isPrefixOf p.components then
    some (p.components.drop base.components.length)
  else none

theorem exists_pieces_join (p q : Path) (hq : q.isAbsolute = false) :
    ∃ front, (p.join q).pieces = front ++ q.pieces ∧
      (p.pieces = front ++ [[]] ∨ (p.pieces = front ∧ p.chars ≠ [])) := by
  unfold join
  rw [if_neg (by simp [hq])]
  split
  · rename_i h
    by_cases he : p.chars = []
    · refine ⟨[], ?_, .inl (by simp [pieces, he, Text.fields])⟩
      have : p.text = "" := String.toList_inj.mp (by simpa [chars] using he)
      simp [this, pieces, chars]
    · have hlast : p.chars.getLast? = some '/' := by simpa [he] using h
      obtain ⟨front, hf⟩ := List.getLast?_eq_some_iff.mp hlast
      have hp : p.pieces = Text.fields '/' front ++ [[]] := by
        rw [pieces, hf, Text.fields_append_cons]
        rfl
      refine ⟨Text.fields '/' front, ?_, .inl hp⟩
      have : (⟨p.text ++ q.text⟩ : Path).chars = front ++ '/' :: q.chars := by
        simp [chars] at hf ⊢
        simp [hf]
      rw [pieces, this, Text.fields_append_cons]
      rfl
  · rename_i h
    refine ⟨p.pieces, ?_, .inr ⟨rfl, fun he => h (by simp [he])⟩⟩
    have : (⟨p.text ++ "/" ++ q.text⟩ : Path).chars = p.chars ++ '/' :: q.chars := by
      simp [chars]
    rw [pieces, this, Text.fields_append_cons]
    rfl

structure IsName (piece : List Char) : Prop where
  ne_nil : piece ≠ []
  slash : '/' ∉ piece
  ne_dot : piece ≠ ['.']
  ne_dots : piece ≠ ['.', '.']

instance : Decidable (IsName piece) :=
  decidable_of_iff (piece ≠ [] ∧ '/' ∉ piece ∧ piece ≠ ['.'] ∧ piece ≠ ['.', '.'])
    ⟨fun h => ⟨h.1, h.2.1, h.2.2.1, h.2.2.2⟩, fun h => ⟨h.ne_nil, h.slash, h.ne_dot, h.ne_dots⟩⟩

theorem IsName.not_idle (h : IsName piece) : isIdle piece = false := by
  simp [isIdle, h.ne_nil, h.ne_dot]

/-- A file name before and after its last dot. A dot at the start separates nothing. -/
def splitExtension (name : List Char) : List Char × Option (List Char) :=
  match (Text.fields '.' name).reverse with
  | ext :: front :: rest =>
    let stem := Text.joined '.' (front :: rest).reverse
    if stem = [] then (name, none) else (stem, some ext)
  | _ => (name, none)

end Path

end RefScan
