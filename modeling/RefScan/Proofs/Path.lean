import RefScan.Path

/-!
# Paths by their pieces

The components of a path can be read off its pieces (`components_eq`). So a path that goes down
some names from another one has the components of that one and then the names, however the other
one is written (`components_join`), and seen from there it is these names again.
-/

namespace RefScan.Path

-- ---------------------------------------------------------------------------
-- Components
-- ---------------------------------------------------------------------------

/-- What the first pieces of a path say about where it starts. -/
def origin : List (List Char) → List Component
  | [] => []
  | piece :: pieces =>
    if piece = [] then (if pieces = [] then [] else [.root])
    else if piece = ['.'] then [.current]
    else []

theorem origin_of_ne {piece : List Char} (hne : piece ≠ []) (hdot : piece ≠ ['.'])
    (pieces : List (List Char)) : origin (piece :: pieces) = [] := by
  simp [origin, hne, hdot]

theorem origin_cases (pieces : List (List Char)) :
    origin pieces = [] ∨ origin pieces = [.root] ∨ origin pieces = [.current] := by
  unfold origin
  grind

theorem components_of_lead_nil {p : Path} (h : p.lead = []) (horigin : origin p.pieces = []) :
    p.components = origin p.pieces ++ p.pieces.filterMap component? := by
  rw [horigin]
  simp [components, body, h, pieces]

theorem components_eq (p : Path) :
    p.components = origin p.pieces ++ p.pieces.filterMap component? := by
  cases hcs : p.chars with
  | nil => simp [components, body, pieces, lead, hcs, Text.fields, origin]
  | cons c cs =>
    by_cases hslash : c = '/'
    · obtain ⟨part, parts, hf⟩ := Text.exists_fields_eq_cons '/' cs
      subst hslash
      simp [components, body, pieces, lead, hcs, Text.fields_cons_self, hf, origin, component?,
        isIdle]
    · -- The first piece starts with `c`; whether it ends there is up to the next character.
      cases cs with
      | nil =>
        by_cases hdot : c = '.'
        · subst hdot
          simp [components, body, pieces, lead, hcs, Text.fields, origin, component?, isIdle]
        · have hpieces : p.pieces = [[c]] := by simp [pieces, hcs, Text.fields, hslash]
          refine components_of_lead_nil (by simp [lead, hcs, hslash, hdot]) ?_
          rw [hpieces]
          exact origin_of_ne (by simp) (by simpa using hdot) _
      | cons d ds =>
        by_cases hd : d = '/'
        · subst hd
          have hpieces : p.pieces = [c] :: Text.fields '/' ds := by
            rw [pieces, hcs]
            exact Text.fields_cons_of_ne hslash (Text.fields_cons_self '/' ds)
          by_cases hdot : c = '.'
          · subst hdot
            simp [components, body, lead, hcs, hpieces, Text.fields_cons_self, origin, component?,
              isIdle]
          · refine components_of_lead_nil (by simp [lead, hcs, hslash, hdot]) ?_
            rw [hpieces]
            exact origin_of_ne (by simp) (by simpa using hdot) _
        · obtain ⟨part, parts, hf⟩ := Text.exists_fields_eq_cons '/' ds
          have hpieces : p.pieces = (c :: d :: part) :: parts := by
            rw [pieces, hcs]
            exact Text.fields_cons_of_ne hslash (Text.fields_cons_of_ne hd hf)
          refine components_of_lead_nil (by simp [lead, hcs, hslash, hd]) ?_
          rw [hpieces]
          exact origin_of_ne (by simp) (by simp) _

-- ---------------------------------------------------------------------------
-- Texts
-- ---------------------------------------------------------------------------

def glue (p : Path) : List Char :=
  if p.chars.isEmpty || p.chars.getLast? = some '/' then [] else ['/']

theorem chars_join (p : Path) {q : Path} (hq : q.isAbsolute = false) :
    (p.join q).chars = p.chars ++ p.glue ++ q.chars := by
  unfold join glue
  split
  · simp_all
  · split <;> simp [chars]

theorem begins_join (p : Path) {q : Path} (hq : q.isAbsolute = false) :
    p.chars <+: (p.join q).chars := by
  rw [chars_join p hq, List.append_assoc]
  exact List.prefix_append _ _

theorem eq_slash_of_mem_glue {p : Path} (h : c ∈ p.glue) : c = '/' := by
  unfold glue at h
  split at h <;> simp_all

theorem isAbsolute_join (p : Path) {q : Path} (hq : q.isAbsolute = false) :
    (p.join q).isAbsolute = p.isAbsolute := by
  unfold isAbsolute at hq ⊢
  rw [chars_join p hq]
  cases hp : p.chars with
  | nil => simp_all [glue]
  | cons c cs => simp

-- ---------------------------------------------------------------------------
-- Extensions
-- ---------------------------------------------------------------------------

theorem splitExtension_eq_some_iff {name stem ext : List Char} :
    splitExtension name = (stem, some ext) ↔
      name = stem ++ '.' :: ext ∧ stem ≠ [] ∧ '.' ∉ ext := by
  constructor
  · intro h
    have hname := Text.joined_fields_self '.' name
    have hdot {part : List Char} (hp : part ∈ Text.fields '.' name) := (Text.of_mem_fields hp).1
    unfold splitExtension at h
    split at h
    · rename_i last front rest hrev
      have hfields : Text.fields '.' name = (front :: rest).reverse ++ [last] := by
        rw [← List.reverse_inj, hrev]
        simp
      rw [hfields, Text.joined_append_singleton '.' (by simp)] at hname
      dsimp only at h
      split at h
      · cases h
      · rename_i hstem
        cases h
        exact ⟨hname.symm, hstem, hdot (by simp [hfields])⟩
    · cases h
  · rintro ⟨rfl, hstem, hext⟩
    obtain ⟨front, rest, hrev⟩ : ∃ front rest, (Text.fields '.' stem).reverse = front :: rest :=
      List.exists_cons_of_ne_nil (by simp [Text.fields_ne_nil])
    have hback : (front :: rest).reverse = Text.fields '.' stem := by
      rw [← hrev, List.reverse_reverse]
    simp only [splitExtension, Text.fields_append_cons, Text.fields_of_not_mem hext,
      List.reverse_append, List.reverse_singleton, List.singleton_append, hrev]
    rw [hback, Text.joined_fields_self, if_neg hstem]

-- ---------------------------------------------------------------------------
-- Names
-- ---------------------------------------------------------------------------

def ofNames (names : List (List Char)) : Path := ⟨String.ofList (Text.joined '/' names)⟩

theorem chars_ofNames (names : List (List Char)) :
    (ofNames names).chars = Text.joined '/' names := by
  simp [ofNames, chars]

variable {names : List (List Char)}

theorem pieces_ofNames (hne : names ≠ []) (hn : ∀ name ∈ names, IsName name) :
    (ofNames names).pieces = names := by
  rw [pieces, chars_ofNames]
  exact Text.fields_joined hne fun name h => (hn name h).slash

theorem isAbsolute_ofNames (hn : ∀ name ∈ names, IsName name) :
    (ofNames names).isAbsolute = false := by
  cases names with
  | nil => simp [isAbsolute, chars_ofNames, Text.joined]
  | cons name names =>
    have hname := hn name List.mem_cons_self
    obtain ⟨c, cs, rfl⟩ := List.exists_cons_of_ne_nil hname.ne_nil
    have hc : c ≠ '/' := by
      rintro rfl
      exact hname.slash List.mem_cons_self
    cases names <;> simp [isAbsolute, chars_ofNames, Text.joined, hc]

theorem filterMap_component_of_names (hn : ∀ name ∈ names, IsName name) :
    names.filterMap component? = names.map .named := by
  induction names with
  | nil => rfl
  | cons name names ih =>
    have hname := hn name List.mem_cons_self
    have hcomponent : component? name = some (.named name) := by
      simp [component?, hname.not_idle, hname.ne_dots]
    rw [List.filterMap_cons_some hcomponent, List.map_cons,
      ih fun x hx => hn x (List.mem_cons_of_mem _ hx)]

theorem components_ofNames (hne : names ≠ []) (hn : ∀ name ∈ names, IsName name) :
    (ofNames names).components = names.map .named := by
  rw [components_eq, pieces_ofNames hne hn, filterMap_component_of_names hn]
  obtain ⟨name, rest, rfl⟩ := List.exists_cons_of_ne_nil hne
  have hname := hn name List.mem_cons_self
  rw [origin_of_ne hname.ne_nil hname.ne_dot, List.nil_append]

-- ---------------------------------------------------------------------------
-- Names seen from another path
-- ---------------------------------------------------------------------------

theorem pieces_ne_singleton {p : Path} (h : p.chars ≠ []) : p.pieces ≠ [[]] := by
  intro hp
  have hjoined := Text.joined_fields_self '/' p.chars
  rw [← pieces, hp] at hjoined
  exact h hjoined.symm

theorem origin_join (p : Path) (hne : names ≠ []) (hn : ∀ name ∈ names, IsName name) :
    origin (p.join (ofNames names)).pieces = origin p.pieces := by
  obtain ⟨front, hjoin, hfront⟩ := exists_pieces_join p (ofNames names) (isAbsolute_ofNames hn)
  rw [hjoin, pieces_ofNames hne hn]
  rcases hfront with hp | ⟨hp, hchars⟩
  · rw [hp]
    cases front with
    | nil =>
      obtain ⟨name, rest, rfl⟩ := List.exists_cons_of_ne_nil hne
      have hname := hn name List.mem_cons_self
      exact origin_of_ne hname.ne_nil hname.ne_dot rest
    | cons piece rest => simp [origin, hne]
  · have hone := pieces_ne_singleton hchars
    rw [hp] at hone ⊢
    cases front with
    | nil => exact absurd hp (Text.fields_ne_nil _ _)
    | cons piece rest =>
      have hrest : piece = [] → rest ≠ [] := by
        rintro rfl rfl
        exact hone rfl
      by_cases hpiece : piece = []
      · simp [origin, hpiece, hne, hrest hpiece]
      · simp [origin, hpiece]

theorem components_join (p : Path) (hne : names ≠ []) (hn : ∀ name ∈ names, IsName name) :
    (p.join (ofNames names)).components = p.components ++ names.map .named := by
  obtain ⟨front, hjoin, hfront⟩ := exists_pieces_join p (ofNames names) (isAbsolute_ofNames hn)
  have hidle : front.filterMap component? = p.pieces.filterMap component? := by
    rcases hfront with h | ⟨h, -⟩
    · simp [h, component?, isIdle]
    · rw [h]
  rw [components_eq, components_eq, origin_join p hne hn, hjoin, pieces_ofNames hne hn,
    List.filterMap_append, hidle, filterMap_component_of_names hn, List.append_assoc]

theorem relativeTo?_join (p : Path) (hne : names ≠ []) (hn : ∀ name ∈ names, IsName name) :
    (p.join (ofNames names)).relativeTo? p = some (names.map .named) := by
  simp [relativeTo?, components_join p hne hn]

-- ---------------------------------------------------------------------------
-- Slashes at the end
-- ---------------------------------------------------------------------------

def trailing (p : Path) (n : Nat) : Path := ⟨p.text ++ String.ofList (List.replicate n '/')⟩

theorem chars_trailing (p : Path) (n : Nat) :
    (p.trailing n).chars = p.chars ++ List.replicate n '/' := by
  simp [trailing, chars]

theorem pieces_trailing (p : Path) (n : Nat) :
    (p.trailing n).pieces = p.pieces ++ List.replicate n [] := by
  simp only [pieces, chars_trailing]
  induction n with
  | zero => simp
  | succ n ih =>
    rw [List.replicate_succ', ← List.append_assoc, Text.fields_append_cons, ih,
      List.replicate_succ', List.append_assoc]
    rfl

end RefScan.Path
