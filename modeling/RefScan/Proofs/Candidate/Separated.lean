import RefScan.Proofs.Candidate

/-!
# Texts with delimiters between them

No path reaches across a delimiter, so texts with delimiters between them have the candidates that
each has on its own, in whatever order they stand and whatever the delimiters are
(`ofText_separated`).
-/

namespace RefScan.Candidates

open Candidate

/-- The texts one after the other, with a delimiter between neighbours. -/
inductive Separated : List (List Char) → List Char → Prop
  | nil : Separated [] []
  | single (text : List Char) : Separated [text] text
  | cons {d next texts whole} (text : List Char) (hd : IsDelimiter d)
      (h : Separated (next :: texts) whole) : Separated (text :: next :: texts) (text ++ d :: whole)

def ofTexts (texts : List (List Char)) : Candidates := texts.foldr (ofText · ∪ ·) ∅

variable {texts : List (List Char)} {whole : List Char} {name : String}

theorem mem_ofTexts : name ∈ ofTexts texts ↔ ∃ text ∈ texts, name ∈ ofText text := by
  induction texts with
  | nil => simp [ofTexts]
  | cons text texts ih =>
    rw [ofTexts] at ih
    simp [ofTexts, Std.ExtTreeSet.mem_union_iff, ih]

theorem separated_joined (hd : IsDelimiter d) (texts : List (List Char)) :
    Separated texts (Text.joined d texts) := by
  induction texts with
  | nil => exact .nil
  | cons text texts ih =>
    cases texts with
    | nil =>
      rw [Text.joined, List.intercalate_singleton]
      exact .single text
    | cons next texts =>
      rw [Text.joined_cons_of_ne_nil d text (List.cons_ne_nil next texts)]
      exact .cons text hd ih

theorem ofText_append_delimiter (hd : IsDelimiter d) (u v : List Char) :
    ofText (u ++ d :: v) = ofText u ∪ ofText v := by
  refine Std.ExtTreeSet.ext_mem fun name => ?_
  rw [Std.ExtTreeSet.mem_union_iff, mem_ofText_append_delimiter hd]

theorem ofText_nil : ofText [] = ∅ :=
  Std.ExtTreeSet.ext_mem fun name => by simp [not_mem_ofText_nil]

theorem Separated.ofText_eq (h : Separated texts whole) : ofText whole = ofTexts texts := by
  induction h with
  | nil => exact ofText_nil
  | single text =>
    refine Std.ExtTreeSet.ext_mem fun name => ?_
    simp [mem_ofTexts]
  | cons text hd h ih =>
    rw [ofText_append_delimiter hd, ih]
    rfl

/-- The candidates of texts with delimiters between them are those of the texts. -/
theorem ofText_separated :
    (∀ (u v : List Char) (d : Char), IsDelimiter d →
      ofText (u ++ [d] ++ v) = ofText u ∪ ofText v) ∧
    (∀ texts whole, Separated texts whole → ofText whole = ofTexts texts) ∧
    ∀ texts texts' whole whole', texts.Perm texts' → Separated texts whole →
      Separated texts' whole' → ofText whole = ofText whole' := by
  refine ⟨fun u v d hd => ?_, fun texts whole h => h.ofText_eq, ?_⟩
  · rw [List.append_assoc, List.singleton_append, ofText_append_delimiter hd]
  · intro texts texts' whole whole' hperm h h'
    refine Std.ExtTreeSet.ext_mem fun name => ?_
    rw [h.ofText_eq, h'.ofText_eq, mem_ofTexts, mem_ofTexts]
    simp only [hperm.mem_iff]

theorem ofText_separated_swapped :
    let u := ['g', 'L', 'a', '/', 'B']
    let v := ['c', '/', 'd', '/', 'E', '/']
    ofText (u ++ [';'] ++ v) = ofText u ∪ ofText v ∧ ofText (u ++ ';' :: v) = ofTexts [u, v] ∧
      ofText (u ++ ';' :: v) = ofText (v ++ 'é' :: u) := by
  intro u v
  have hsemicolon : IsDelimiter ';' := by decide
  have hletter : IsDelimiter 'é' := by decide
  have huv : Separated [u, v] (u ++ ';' :: v) := .cons u hsemicolon (.single v)
  have hvu : Separated [v, u] (v ++ 'é' :: u) := .cons v hletter (.single u)
  obtain ⟨htwo, hall, hperm⟩ := ofText_separated
  exact ⟨htwo u v ';' hsemicolon, hall _ _ huv, hperm _ _ _ _ (.swap v u []) huv hvu⟩

end RefScan.Candidates
