/-!
# Text as lists of characters

Texts that a scan reads are lists of characters and their bytes are lists of bytes; `String` is
kept for names. This module holds what the readers share: the replacement character, splitting
at a separator and joining again.
-/

namespace RefScan

abbrev Bytes := List UInt8

namespace Text

def replacement : Char := '�'

/-- The parts between separators; `n` separators give `n + 1` parts, empty ones included. -/
def fields (separator : Char) : List Char → List (List Char)
  | [] => [[]]
  | c :: cs =>
    if c = separator then [] :: fields separator cs
    else match fields separator cs with
      | [] => [[c]]
      | part :: parts => (c :: part) :: parts

def joined (separator : Char) (parts : List (List Char)) : List Char :=
  List.intercalate [separator] parts

theorem fields_ne_nil (separator : Char) (cs : List Char) : fields separator cs ≠ [] := by
  cases cs with
  | nil => simp [fields]
  | cons c cs =>
    unfold fields
    split
    · simp
    · split <;> simp

theorem fields_cons_self (separator : Char) (cs : List Char) :
    fields separator (separator :: cs) = [] :: fields separator cs := by
  simp [fields]

theorem fields_cons_of_ne {separator c : Char} (h : c ≠ separator) {cs part : List Char}
    {parts : List (List Char)} (hcs : fields separator cs = part :: parts) :
    fields separator (c :: cs) = (c :: part) :: parts := by
  simp [fields, h, hcs]

theorem exists_fields_eq_cons (separator : Char) (cs : List Char) :
    ∃ part parts, fields separator cs = part :: parts := by
  cases h : fields separator cs with
  | nil => exact absurd h (fields_ne_nil _ _)
  | cons part parts => exact ⟨part, parts, rfl⟩

theorem fields_append_cons (separator : Char) (a b : List Char) :
    fields separator (a ++ separator :: b) = fields separator a ++ fields separator b := by
  induction a with
  | nil => simp [fields]
  | cons c cs ih =>
    by_cases hc : c = separator
    · subst hc
      simp [fields_cons_self, ih]
    · obtain ⟨part, parts, h⟩ := exists_fields_eq_cons separator cs
      have h' : fields separator (cs ++ separator :: b) =
          part :: (parts ++ fields separator b) := by rw [ih, h]; rfl
      rw [List.cons_append, fields_cons_of_ne hc h, fields_cons_of_ne hc h']
      rfl

theorem fields_of_not_mem {separator : Char} {cs : List Char} (h : separator ∉ cs) :
    fields separator cs = [cs] := by
  induction cs with
  | nil => rfl
  | cons c cs ih =>
    simp only [List.mem_cons, not_or] at h
    exact fields_cons_of_ne (Ne.symm h.1) (ih h.2)

theorem fields_append_of_not_mem {separator : Char} {b : List Char} (h : separator ∉ b)
    (a : List Char) : ∃ parts last, fields separator a = parts ++ [last] ∧
      fields separator (a ++ b) = parts ++ [last ++ b] := by
  induction a with
  | nil => exact ⟨[], [], rfl, fields_of_not_mem h⟩
  | cons c cs ih =>
    obtain ⟨parts, last, h₁, h₂⟩ := ih
    by_cases hc : c = separator
    · subst hc
      exact ⟨[] :: parts, last, by simp [fields_cons_self, h₁], by simp [fields_cons_self, h₂]⟩
    · cases parts with
      | nil =>
        exact ⟨[], c :: last, fields_cons_of_ne hc h₁, fields_cons_of_ne hc h₂⟩
      | cons part parts =>
        exact ⟨(c :: part) :: parts, last, fields_cons_of_ne hc h₁, fields_cons_of_ne hc h₂⟩

theorem of_mem_fields {separator : Char} {cs part : List Char} (h : part ∈ fields separator cs) :
    separator ∉ part ∧ part ⊆ cs := by
  induction cs generalizing part with
  | nil => simp_all [fields]
  | cons c cs ih =>
    obtain ⟨first, parts, hf⟩ := exists_fields_eq_cons separator cs
    have hcons {part : List Char} (h : part ∈ fields separator cs) : part ⊆ c :: cs :=
      List.subset_cons_of_subset c (ih h).2
    by_cases hc : c = separator
    · subst hc
      rw [fields_cons_self, List.mem_cons] at h
      rcases h with rfl | h
      · simp
      · exact ⟨(ih h).1, hcons h⟩
    · rw [fields_cons_of_ne hc hf, List.mem_cons] at h
      rcases h with rfl | h
      · have hfirst : first ∈ fields separator cs := hf ▸ List.mem_cons_self
        refine ⟨?_, List.cons_subset.mpr ⟨List.mem_cons_self, hcons hfirst⟩⟩
        simpa only [List.mem_cons, not_or] using ⟨Ne.symm hc, (ih hfirst).1⟩
      · have hpart : part ∈ fields separator cs := hf ▸ List.mem_cons_of_mem _ h
        exact ⟨(ih hpart).1, hcons hpart⟩

def replace (old new : Char) (cs : List Char) : List Char :=
  cs.map fun c => if c = old then new else c

theorem replace_append (old new : Char) (a b : List Char) :
    replace old new (a ++ b) = replace old new a ++ replace old new b := by
  simp [replace]

theorem getElem?_of_replace {old new c : Char} {cs : List Char} {i : Nat}
    (h : (replace old new cs)[i]? = some c) (hc : c ≠ new) : cs[i]? = some c := by
  rw [replace, List.getElem?_map] at h
  obtain ⟨x, hx, hreplaced⟩ := Option.map_eq_some_iff.mp h
  split at hreplaced
  · exact absurd hreplaced.symm hc
  · exact hreplaced ▸ hx

theorem replace_replace_of_not_mem {old new : Char} {cs : List Char} (h : new ∉ cs) :
    replace new old (replace old new cs) = cs := by
  induction cs with
  | nil => rfl
  | cons c cs ih =>
    simp only [List.mem_cons, not_or] at h
    have ih := ih h.2
    simp only [replace, List.map_cons] at ih ⊢
    by_cases hc : c = old
    · simp [hc, ih]
    · simp [hc, ih, Ne.symm h.1]

theorem joined_fields (old new : Char) (cs : List Char) :
    joined new (fields old cs) = replace old new cs := by
  induction cs with
  | nil => rfl
  | cons c cs ih =>
    obtain ⟨part, parts, h⟩ := exists_fields_eq_cons old cs
    rw [h] at ih
    by_cases hc : c = old
    · subst hc
      rw [fields_cons_self, h]
      simp only [joined, List.intercalate_cons_cons] at ih ⊢
      simp [replace, ih]
    · rw [fields_cons_of_ne hc h]
      cases parts with
      | nil =>
        simp only [joined, List.intercalate_singleton] at ih ⊢
        simp [replace, hc, ih]
      | cons next parts =>
        simp only [joined, List.intercalate_cons_cons] at ih ⊢
        simp only [replace, List.map_cons, hc, if_false] at ih ⊢
        rw [← ih]
        rfl

theorem joined_fields_self (separator : Char) (cs : List Char) :
    joined separator (fields separator cs) = cs := by
  rw [joined_fields, replace]
  refine (List.map_congr_left fun c _ => ?_).trans (List.map_id cs)
  split
  · rename_i h
    exact h.symm
  · rfl

theorem joined_cons_of_ne_nil (separator : Char) (part : List Char) (h : parts ≠ []) :
    joined separator (part :: parts) = part ++ separator :: joined separator parts := by
  obtain ⟨next, parts, rfl⟩ := List.exists_cons_of_ne_nil h
  simp [joined, List.intercalate_cons_cons]

theorem joined_cons_cons (separator c : Char) (part : List Char) (parts : List (List Char)) :
    joined separator ((c :: part) :: parts) = c :: joined separator (part :: parts) := by
  cases parts <;> simp [joined, List.intercalate_cons_cons]

theorem joined_append_singleton (separator : Char) (h : parts ≠ []) (last : List Char) :
    joined separator (parts ++ [last]) = joined separator parts ++ separator :: last := by
  induction parts with
  | nil => exact absurd rfl h
  | cons part parts ih =>
    rw [List.cons_append, joined_cons_of_ne_nil separator part (by simp)]
    cases parts with
    | nil => simp [joined]
    | cons next parts =>
      rw [ih (by simp), joined_cons_of_ne_nil separator part (by simp), List.append_assoc,
        List.cons_append]

theorem mem_joined (h : c ∈ joined separator parts) :
    c = separator ∨ ∃ part ∈ parts, c ∈ part := by
  induction parts with
  | nil => simp [joined] at h
  | cons part parts ih =>
    by_cases hne : parts = []
    · subst hne
      exact .inr ⟨part, by simp, by simpa [joined] using h⟩
    · rw [joined_cons_of_ne_nil separator part hne, List.mem_append, List.mem_cons] at h
      rcases h with h | rfl | h
      · exact .inr ⟨part, List.mem_cons_self, h⟩
      · exact .inl rfl
      · obtain h | ⟨x, hx, h⟩ := ih h
        · exact .inl h
        · exact .inr ⟨x, List.mem_cons_of_mem _ hx, h⟩

theorem fields_joined {separator : Char} {parts : List (List Char)} (hne : parts ≠ [])
    (h : ∀ part ∈ parts, separator ∉ part) : fields separator (joined separator parts) = parts := by
  induction parts with
  | nil => exact absurd rfl hne
  | cons part parts ih =>
    have hpart := fields_of_not_mem (h part List.mem_cons_self)
    cases parts with
    | nil => simpa [joined] using hpart
    | cons next parts =>
      rw [joined_cons_of_ne_nil separator part (by simp), fields_append_cons, hpart,
        ih (by simp) fun x hx => h x (List.mem_cons_of_mem _ hx)]
      rfl

/-- Where `new` does not occur, the replaced text splits at `new` as the text does at `old`. -/
theorem fields_replace {old new : Char} {cs : List Char} (h : new ∉ cs) :
    fields new (replace old new cs) = fields old cs := by
  induction cs with
  | nil => rfl
  | cons c cs ih =>
    simp only [List.mem_cons, not_or] at h
    have ih := ih h.2
    obtain ⟨part, parts, hf⟩ := exists_fields_eq_cons old cs
    simp only [replace, List.map_cons] at ih ⊢
    by_cases hc : c = old
    · subst hc
      simp [fields_cons_self, ih]
    · rw [if_neg hc, fields_cons_of_ne hc hf, fields_cons_of_ne (Ne.symm h.1) (ih.trans hf)]

def utf8 (cs : List Char) : Bytes := cs.flatMap String.utf8EncodeChar

def trim (p : Char → Bool) (cs : List Char) : List Char :=
  ((cs.dropWhile p).reverse.dropWhile p).reverse

end Text

theorem lt_of_compare {a b : String} (h : compare a b = .lt) : a < b :=
  compareOfLessAndEq_eq_lt.mp h

def utf8Bytes (s : String) : Bytes := Text.utf8 s.toList

end RefScan
