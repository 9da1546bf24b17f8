import RefScan.Proofs.Candidate.Search

/-!
# Type paths in any surroundings

The path of a type is found wherever it stands apart from what is before and behind it, also as a
descriptor, with an `L` in front of it that may follow one more letter or digit. It adds its name
to the candidates of the texts on both sides and takes none away
(`ofText_surrounded`).
-/

namespace RefScan.Candidate

/-- Packages and a capitalised name. The second character is no `L`: such a path is taken for a
letter before a descriptor. -/
structure TypePath where
  packages : List (List Char)
  simple : List Char
  packages_ne_nil : packages ≠ []
  isPackage : ∀ s ∈ packages, s ∈ Grammar.package
  isCapitalised : simple ∈ Grammar.capitalised
  not_glued : (Text.joined '/' (packages ++ [simple]))[1]? ≠ some 'L'

namespace TypePath

def text (P : TypePath) : List Char := Text.joined '/' (P.packages ++ [P.simple])

def name (P : TypePath) : String := String.ofList (Text.replace '/' '.' P.text)

end TypePath

variable {text v : List Char} {c : Char} {i : Nat} {name : String}

theorem isSegmentChar_of_mem_segments (hp : ∀ s ∈ packages, s ∈ Grammar.package)
    (hs : simple ∈ Grammar.capitalised) (hpart : part ∈ packages ++ [simple]) (hc : c ∈ part) :
    isSegmentChar c = true := by
  rcases List.mem_append.mp hpart with hpart | hpart
  · obtain ⟨x, xs, hx, hxs, rfl⟩ := Grammar.mem_package.mp (hp part hpart)
    rcases List.mem_cons.mp hc with rfl | hc
    · exact Grammar.isSegmentChar_of_isLower hx
    · exact hxs c hc
  · obtain ⟨x, xs, hx, hxs, rfl⟩ := Grammar.mem_capitalised.mp (List.mem_singleton.mp hpart ▸ hs)
    rcases List.mem_cons.mp hc with rfl | hc
    · exact Grammar.isSegmentChar_of_isUpper hx
    · exact hxs c hc

theorem TypePath.ascii (P : TypePath) (h : c ∈ P.text) : c.toNat < 0x80 := by
  rcases Text.mem_joined h with rfl | ⟨part, hpart, hc⟩
  · decide
  · exact Grammar.toNat_lt_of_isSegmentChar
      (isSegmentChar_of_mem_segments P.isPackage P.isCapitalised hpart hc)

-- ---------------------------------------------------------------------------
-- Reading a type path
-- ---------------------------------------------------------------------------

theorem tail_of_not_segment (hv : ∀ c ∈ v.head?, isSegmentChar c = false) :
    tail false v = [] := by
  cases v with
  | nil => rfl
  | cons c cs =>
    have hc : isSegmentChar c = false := hv c rfl
    by_cases hslash : c = '/'
    · subst hslash
      cases cs <;> simp [tail, not_isSegmentChar_slash]
    · simp [tail_cons_of_ne hslash, hc]

theorem tail_slash_capitalised (hs : s ∈ Grammar.capitalised)
    (hv : ∀ c ∈ v.head?, isSegmentChar c = false) :
    tail true ('/' :: (s ++ v)) = '/' :: s := by
  obtain ⟨c, cs, hc, hcs, rfl⟩ := Grammar.mem_capitalised.mp hs
  rw [List.cons_append, tail_slash (Grammar.isSegmentChar_of_isUpper hc),
    Grammar.not_isLower_of_isUpper hc, tail_append_segment hcs, tail_of_not_segment hv,
    List.append_nil]

theorem pathAt_joined (hne : packages ≠ []) (hp : ∀ s ∈ packages, s ∈ Grammar.package)
    (hs : simple ∈ Grammar.capitalised) (hv : ∀ c ∈ v.head?, isSegmentChar c = false) :
    pathAt (Text.joined '/' (packages ++ [simple]) ++ v) =
      Text.joined '/' (packages ++ [simple]) := by
  induction packages with
  | nil => exact absurd rfl hne
  | cons s packages ih =>
    have hfirst : s ∈ Grammar.package := hp s List.mem_cons_self
    have hrest : ∀ x ∈ packages, x ∈ Grammar.package :=
      fun x hx => hp x (List.mem_cons_of_mem _ hx)
    rw [List.cons_append, Text.joined_cons_of_ne_nil '/' s (by simp), List.append_assoc,
      pathAt_append_package hfirst, List.cons_append]
    congr 1
    cases packages with
    | nil =>
      rw [List.nil_append, Text.joined, List.intercalate_singleton]
      exact tail_slash_capitalised hs hv
    | cons s' packages =>
      have ih := ih (by simp) hrest
      rw [List.cons_append, Text.joined_cons_of_ne_nil '/' s' (by simp)] at ih ⊢
      rw [List.append_assoc] at ih ⊢
      rw [tail_slash_package (hrest s' List.mem_cons_self), ih]

namespace TypePath

variable (P : TypePath)

theorem text_eq : P.text = Text.joined '/' P.packages ++ '/' :: P.simple :=
  Text.joined_append_singleton '/' P.packages_ne_nil P.simple

theorem pathAt_text (hv : ∀ c ∈ v.head?, isSegmentChar c = false) :
    pathAt (P.text ++ v) = P.text :=
  pathAt_joined P.packages_ne_nil P.isPackage P.isCapitalised hv

theorem isPath_text : isPath P.text = true := by
  simp [isPath, P.text_eq]

theorem longestAt_text (hv : ∀ c ∈ v.head?, isSegmentChar c = false) :
    LongestAt (P.text ++ v) P.text := by
  have hpath : isPath (pathAt (P.text ++ v)) = true := by
    rw [P.pathAt_text hv]
    exact P.isPath_text
  have h := longestAt_pathAt hpath
  rwa [P.pathAt_text hv] at h

theorem endsCapitalised_text : EndsCapitalised P.text := by
  obtain ⟨c, cs, hc, hcs, heq⟩ := Grammar.mem_capitalised.mp P.isCapitalised
  refine ⟨Text.joined '/' P.packages, c, cs, heq ▸ P.text_eq, ?_, Grammar.isUpper_iff.mp hc⟩
  exact slash_not_mem_of_segment
    (List.forall_mem_cons.mpr ⟨Grammar.isSegmentChar_of_isUpper hc, hcs⟩)

theorem exists_text_cons (hc : c.isLower = true) : ∃ Q : TypePath, Q.text = c :: P.text := by
  obtain ⟨packages, simple, hne, hpackages, hsimple, -⟩ := P
  obtain ⟨s, packages, rfl⟩ := List.exists_cons_of_ne_nil hne
  obtain ⟨hs, hrest⟩ := List.forall_mem_cons.mp hpackages
  obtain ⟨x, xs, hx, hxs, rfl⟩ := Grammar.mem_package.mp hs
  have htext : Text.joined '/' ((c :: x :: xs) :: packages ++ [simple]) =
      c :: Text.joined '/' ((x :: xs) :: packages ++ [simple]) := Text.joined_cons_cons _ _ _ _
  have hlonger : c :: x :: xs ∈ Grammar.package := by
    refine Grammar.mem_package.mpr ⟨c, x :: xs, hc, ?_, rfl⟩
    exact List.forall_mem_cons.mpr ⟨Grammar.isSegmentChar_of_isLower hx, hxs⟩
  refine ⟨⟨(c :: x :: xs) :: packages, simple, by simp,
    List.forall_mem_cons.mpr ⟨hlonger, hrest⟩, hsimple, ?_⟩, htext⟩
  -- what was the first character is the second one now, and in lower case
  rw [htext, List.cons_append, Text.joined_cons_cons]
  intro hglued
  cases hglued
  cases hx

end TypePath

end Candidate

-- ---------------------------------------------------------------------------
-- Candidates around it
-- ---------------------------------------------------------------------------

namespace Candidates

open Candidate

variable {text v : List Char} {c : Char} {name : String}

theorem mem_ofText_drop_iff (name : String) (text : List Char) (i : Nat) :
    name ∈ ofText (text.drop i) ↔ Contributes text i name := by
  rw [mem_ofText]
  exact exists_typeName_iff_contributes rfl 0 0

theorem exists_path_of_mem_ofText (h : name ∈ ofText text) :
    ∃ p ∈ Grammar.path, p <:+: text := by
  have hpath {a s : Nat} {p : List Char} (hl : LeftmostLongest text a s p) :
      ∃ p ∈ Grammar.path, p <:+: text :=
    ⟨p, hl.longest.mem, hl.longest.head.isInfix.trans (List.drop_suffix s text).isInfix⟩
  cases (mem_ofText_drop_iff name text 0).mp h with
  | found hl => exact hpath hl
  | glued hl => exact hpath hl
  | behind hl => exact hpath hl

theorem not_mem_ofText_of_slash_not_mem (h : '/' ∉ text) : name ∉ ofText text := by
  intro hmem
  obtain ⟨p, hp, hsub⟩ := exists_path_of_mem_ofText hmem
  exact h (hsub.subset (slash_mem_of_mem_path hp))

theorem mem_ofText_cons_of_not_isPath (h : isPath (pathAt (c :: cs)) = false) :
    name ∈ ofText (c :: cs) ↔ name ∈ ofText cs := by
  have hnone : ∀ j < 1, ∀ p ∈ Grammar.path, ¬ p <+: (c :: cs).drop (0 + j) := by
    intro j hj p hp hhead
    obtain rfl : j = 0 := by omega
    rw [Nat.add_zero, List.drop_zero] at hhead
    rw [isPath_of_head hp hhead] at h
    cases h
  have hhere := mem_ofText_drop_iff name (c :: cs) 0
  have hnext := mem_ofText_drop_iff name (c :: cs) 1
  exact hhere.trans ((contributes_add_iff hnone).symm.trans hnext.symm)

theorem mem_ofText_cons_of_not_isLower (h : c.isLower = false) (cs : List Char) :
    name ∈ ofText (c :: cs) ↔ name ∈ ofText cs :=
  mem_ofText_cons_of_not_isPath (by simp [pathAt, h, isPath])

/-- A character before an `L` counts for nothing, even if a path starts there. -/
theorem mem_ofText_cons_descriptor (c : Char) (cs : List Char) :
    name ∈ ofText (c :: 'L' :: cs) ↔ name ∈ ofText cs := by
  rw [← mem_ofText_cons_of_not_isLower (show 'L'.isLower = false by decide) cs]
  cases hpath : isPath (pathAt (c :: 'L' :: cs)) with
  | false => exact mem_ofText_cons_of_not_isPath hpath
  | true =>
    have hsecond : (pathAt (c :: 'L' :: cs))[1]? = some 'L' := by
      have hL : isSegmentChar 'L' = true := by decide
      by_cases hc : c.isLower = true
      · simp [pathAt, hc, tail_cons_of_ne (show 'L' ≠ '/' by decide), hL]
      · simp [pathAt, hc, isPath] at hpath
    have hleft := (longestAt_pathAt hpath).leftmostLongest (a := 0)
    have hhere := mem_ofText_drop_iff name (c :: 'L' :: cs) 0
    have hnext := mem_ofText_drop_iff name (c :: 'L' :: cs) 1
    exact hhere.trans ((contributes_iff_of_glued hleft hsecond).trans hnext.symm)

theorem mem_ofText_typePath (P : TypePath) (hv : ∀ c ∈ v.head?, isSegmentChar c = false) :
    name ∈ ofText (P.text ++ v) ↔ name = P.name ∨ name ∈ ofText v := by
  have hhere := mem_ofText_drop_iff name (P.text ++ v) 0
  have hbehind := mem_ofText_drop_iff name (P.text ++ v) (0 + P.text.length)
  have hleft := (P.longestAt_text hv).leftmostLongest (a := 0)
  rw [Nat.zero_add, List.drop_left] at hbehind
  rw [List.drop_zero] at hhere
  rw [hhere, contributes_iff_of_not_glued hleft P.not_glued, Nat.zero_add, ← hbehind]
  exact or_congr_left (and_iff_right P.endsCapitalised_text)

/-- What may stand between a delimiter and a type path without hiding it. -/
def IsLead (w : List Char) : Prop :=
  w = [] ∨ w = ['L'] ∨ ∃ c, isSegmentChar c = true ∧ w = [c, 'L']

theorem mem_ofText_lead (hw : IsLead w) (cs : List Char) :
    name ∈ ofText (w ++ cs) ↔ name ∈ ofText cs := by
  rcases hw with rfl | rfl | ⟨c, -, rfl⟩
  · rfl
  · exact mem_ofText_cons_of_not_isLower (by decide) cs
  · exact mem_ofText_cons_descriptor c cs

theorem mem_ofText_append_of_delimited (hu : ∀ d ∈ u.getLast?, IsDelimiter d) (v : List Char) :
    name ∈ ofText (u ++ v) ↔ name ∈ ofText u ∨ name ∈ ofText v := by
  rcases List.eq_nil_or_concat u with rfl | ⟨front, d, rfl⟩
  · exact (or_iff_right not_mem_ofText_nil).symm
  · have hd : IsDelimiter d := hu d (by simp)
    rw [List.concat_eq_append, List.append_assoc, List.singleton_append,
      mem_ofText_append_delimiter hd, mem_ofText_append_delimiter hd]
    simp only [not_mem_ofText_nil, or_false]

/-- A type path that a delimiter precedes, with or without a lead between them, and that no letter
or digit follows. -/
theorem ofText_surrounded (P : TypePath) {u v w : List Char} (hu : ∀ d ∈ u.getLast?, IsDelimiter d)
    (hw : IsLead w) (hv : ∀ c ∈ v.head?, isSegmentChar c = false) :
    ofText (u ++ w ++ P.text ++ v) = (ofText u ∪ ofText v).insert P.name := by
  refine Std.ExtTreeSet.ext_mem fun name => ?_
  rw [Std.ExtTreeSet.mem_insert, Std.ExtTreeSet.mem_union_iff, Std.LawfulEqCmp.compare_eq_iff_eq,
    @eq_comm _ P.name, List.append_assoc, List.append_assoc, mem_ofText_append_of_delimited hu,
    mem_ofText_lead hw, mem_ofText_typePath P hv]
  exact or_left_comm

def nested : TypePath where
  packages := [['a'], ['b', 'L']]
  simple := ['C', '1']
  packages_ne_nil := by simp
  isPackage := by
    simp only [List.forall_mem_cons, List.not_mem_nil, false_implies, implies_true, and_true]
    exact ⟨Grammar.cons_mem_package (by decide) rfl,
      Grammar.cons_mem_package (by decide) (by decide)⟩
  isCapitalised := Grammar.cons_mem_capitalised (by decide) (by decide)
  not_glued := by decide

/-- A length byte that is a letter stands before the descriptor, and a slash behind it. -/
theorem ofText_nested_descriptor :
    nested.text = ['a', '/', 'b', 'L', '/', 'C', '1'] ∧ nested.name = "a.bL.C1" ∧
    (∀ d ∈ ['x', ';'].getLast?, IsDelimiter d) ∧ IsLead ['g', 'L'] ∧
    (∀ c ∈ ['/', 'd', '/', 'E'].head?, isSegmentChar c = false) ∧
    ofText (['x', ';'] ++ ['g', 'L'] ++ nested.text ++ ['/', 'd', '/', 'E']) =
      (ofText ['x', ';'] ∪ ofText ['/', 'd', '/', 'E']).insert nested.name := by
  have hu : ∀ d ∈ ['x', ';'].getLast?, IsDelimiter d := by
    intro d hd
    obtain rfl : ';' = d := Option.some.inj hd
    exact ⟨by decide, by decide⟩
  have hw : IsLead ['g', 'L'] := .inr (.inr ⟨'g', by decide, rfl⟩)
  have hv : ∀ c ∈ ['/', 'd', '/', 'E'].head?, isSegmentChar c = false := by
    intro c hc
    obtain rfl : '/' = c := Option.some.inj hc
    decide
  exact ⟨rfl, by decide, hu, hw, hv, ofText_surrounded nested hu hw hv⟩

end Candidates

end RefScan
