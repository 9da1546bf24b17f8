import RefScan.ClassPath
import RefScan.Proofs.Candidate.Separated
import RefScan.Proofs.Candidate.TypePath

/-!
# What candidates look like

Every candidate is the name of a type path that stands in the text with no letter or digit behind
it, so candidates are names that can be looked up. A type path on its own has its name for its
only candidate, so candidates written down again are found again, and nothing else is
(`candidates_of_text`).
-/

namespace RefScan

namespace Candidate

open Grammar (path)

variable {text p v : List Char} {a : Nat} {name : String}

-- ---------------------------------------------------------------------------
-- From paths to type paths
-- ---------------------------------------------------------------------------

theorem LongestAt.not_segment_behind (h : LongestAt (p ++ v) p) :
    ∀ c ∈ v.head?, isSegmentChar c = false := by
  intro c hc
  refine Bool.eq_false_iff.mpr fun hsegment => ?_
  obtain ⟨rest, rfl⟩ : ∃ rest, v = c :: rest := List.head?_eq_some_iff.mp hc
  -- with this character the path would be longer
  have hle := h.longest (Grammar.append_mem_path h.mem hsegment) ⟨rest, by simp⟩
  simp only [List.length_append, List.length_singleton] at hle
  omega

theorem exists_typePath_of_mem_path (hp : p ∈ path) (hglued : p[1]? ≠ some 'L')
    (hcapitalised : EndsCapitalised p) : ∃ P : TypePath, P.text = p := by
  have htype := (isType_iff_endsCapitalised (o := ⟨0, p⟩) hp).mpr hcapitalised
  obtain ⟨packages, last, hne, hpackages, hlast, rfl⟩ := Grammar.exists_segments_of_mem_path hp
  obtain ⟨c, cs, hc, hcs, rfl⟩ := Grammar.mem_final.mp hlast
  have hslash : '/' ∉ c :: cs := slash_not_mem_of_segment (List.forall_mem_cons.mpr ⟨hc, hcs⟩)
  have hupper : c.isUpper = true := by
    simpa only [Occurrence.isType, Text.joined_append_singleton '/' hne,
      lastSegment_append _ hslash] using htype
  have hsimple := Grammar.mem_capitalised.mpr ⟨c, cs, hupper, hcs, rfl⟩
  exact ⟨⟨packages, c :: cs, hne, hpackages, hsimple, hglued⟩, rfl⟩

/-- What contributes a name is a type path in the text, however many paths were passed over before
the search came to it. -/
theorem Contributes.exists_typePath (h : Contributes text a name) :
    ∃ P : TypePath, P.name = name ∧ ∃ u v, text = u ++ P.text ++ v ∧
      ∀ c ∈ v.head?, isSegmentChar c = false := by
  induction h with
  | @found a s p hl hglued hcapitalised =>
    obtain ⟨P, rfl⟩ := exists_typePath_of_mem_path hl.longest.mem hglued hcapitalised
    obtain ⟨v, hv⟩ := hl.longest.head
    refine ⟨P, rfl, text.take s, v, ?_, ?_⟩
    · rw [List.append_assoc, hv, List.take_append_drop]
    · have hlongest := hl.longest
      rw [← hv] at hlongest
      exact hlongest.not_segment_behind
  | glued _ _ _ ih => exact ih
  | behind _ _ _ ih => exact ih

-- ---------------------------------------------------------------------------
-- Names of type paths
-- ---------------------------------------------------------------------------

namespace TypePath

variable (P : TypePath)

theorem isSegmentChar_of_mem (hpart : part ∈ P.packages ++ [P.simple]) (hc : c ∈ part) :
    isSegmentChar c = true :=
  isSegmentChar_of_mem_segments P.isPackage P.isCapitalised hpart hc

theorem dot_not_mem_text : '.' ∉ P.text := by
  intro hdot
  rcases Text.mem_joined hdot with heq | ⟨part, hpart, hc⟩
  · exact absurd heq (by decide)
  · exact absurd (P.isSegmentChar_of_mem hpart hc) (by decide)

theorem toList_name : P.name.toList = Text.replace '/' '.' P.text := String.toList_ofList

theorem fields_name : Text.fields '.' P.name.toList = P.packages ++ [P.simple] := by
  rw [toList_name, Text.fields_replace P.dot_not_mem_text, text]
  exact Text.fields_joined (by simp) fun part hpart =>
    slash_not_mem_of_segment fun _ => P.isSegmentChar_of_mem hpart

theorem internal_name : (TypeName.mk P.name).internal.toList = P.text := by
  rw [TypeName.internal, String.toList_ofList, toList_name]
  exact Text.replace_replace_of_not_mem P.dot_not_mem_text

theorem name_not_glued : P.name.toList[1]? ≠ some 'L' := by
  rw [toList_name]
  exact fun heq => P.not_glued (Text.getElem?_of_replace heq (by decide))

theorem segment_ne_nil (hpart : part ∈ P.packages ++ [P.simple]) : part ≠ [] := by
  rcases List.mem_append.mp hpart with hpart | hpart
  · obtain ⟨x, xs, -, -, rfl⟩ := Grammar.mem_package.mp (P.isPackage part hpart)
    simp
  · obtain ⟨x, xs, -, -, heq⟩ := Grammar.mem_capitalised.mp P.isCapitalised
    simp [List.mem_singleton.mp hpart, heq]

theorem isQualifiedName_name : isQualifiedName P.name = true := by
  rw [isQualifiedName, fields_name, List.all_eq_true]
  intro part hpart
  have hne := P.segment_ne_nil hpart
  have hall : ∀ c ∈ part, isIdentifierChar c = true := fun c hc => by
    simp [isIdentifierChar, Text.isAlnum_of_isAlphanum c (P.isSegmentChar_of_mem hpart hc)]
  simpa [hne] using hall

end TypePath

end Candidate

namespace Candidates

open Candidate

variable {text : List Char} {name : String}

theorem exists_typePath_of_mem_ofText (h : name ∈ ofText text) :
    ∃ P : TypePath, P.name = name ∧ ∃ u v, text = u ++ P.text ++ v ∧
      ∀ c ∈ v.head?, isSegmentChar c = false :=
  ((mem_ofText_drop_iff name text 0).mp h).exists_typePath

theorem mem_ofText_text (P : TypePath) : name ∈ ofText P.text ↔ name = P.name := by
  rw [← List.append_nil P.text, mem_ofText_typePath P (by simp)]
  exact or_iff_left not_mem_ofText_nil

theorem mem_ofText_internal_of_mem (h : found ∈ ofText text) :
    name ∈ ofText (TypeName.mk found).internal.toList ↔ name = found := by
  obtain ⟨P, rfl, -⟩ := exists_typePath_of_mem_ofText h
  rw [P.internal_name, mem_ofText_text]

theorem ofText_joined_internal (text : List Char) (hd : IsDelimiter d) :
    ofText (Text.joined d ((ofText text).toList.map fun name =>
      (TypeName.mk name).internal.toList)) = ofText text := by
  refine Std.ExtTreeSet.ext_mem fun name => ?_
  rw [(separated_joined hd _).ofText_eq, mem_ofTexts]
  constructor
  · rintro ⟨_, hpath, hname⟩
    obtain ⟨found, hlisted, rfl⟩ := List.mem_map.mp hpath
    have hfound := Std.ExtTreeSet.mem_toList.mp hlisted
    exact (mem_ofText_internal_of_mem hfound).mp hname ▸ hfound
  · intro hname
    have hlisted := Std.ExtTreeSet.mem_toList.mpr hname
    exact ⟨_, List.mem_map_of_mem hlisted, (mem_ofText_internal_of_mem hname).mpr rfl⟩

/-- The name of a type, found in a text where no letter or digit follows it. -/
structure WellFormedIn (text : List Char) (name : String) : Prop where
  segments : ∃ packages simple, Text.fields '.' name.toList = packages ++ [simple] ∧
    packages ≠ [] ∧ (∀ s ∈ packages, s ∈ Grammar.package) ∧ simple ∈ Grammar.capitalised
  not_glued : name.toList[1]? ≠ some 'L'
  occurs : ∃ u v, text = u ++ (TypeName.mk name).internal.toList ++ v ∧
    ∀ c ∈ v.head?, isSegmentChar c = false
  qualified : isQualifiedName name = true

/-- Candidates have the form of type names and can be looked up. Written down again, with
semicolons between them, they are found again. -/
theorem candidates_of_text (text : List Char) :
    (∀ name ∈ ofText text, WellFormedIn text name) ∧
    ofText (Text.joined ';' ((ofText text).toList.map fun name =>
      (TypeName.mk name).internal.toList)) = ofText text := by
  refine ⟨fun name hname => ?_, ofText_joined_internal text (by decide)⟩
  obtain ⟨P, rfl, u, v, htext, hv⟩ := exists_typePath_of_mem_ofText hname
  constructor
  case segments =>
    exact ⟨P.packages, P.simple, P.fields_name, P.packages_ne_nil, P.isPackage, P.isCapitalised⟩
  case not_glued => exact P.name_not_glued
  case occurs => exact ⟨u, v, by rwa [P.internal_name], hv⟩
  case qualified => exact P.isQualifiedName_name

/-- A letter before a descriptor, and a path that goes on behind the name of a type. -/
theorem candidates_of_descriptor :
    let text := "gLa/b1/C/D;é".toList
    "a.b1.C" ∈ ofText text ∧ WellFormedIn text "a.b1.C" ∧
      ofText (Text.joined ';' ((ofText text).toList.map fun name =>
        (TypeName.mk name).internal.toList)) = ofText text := by
  intro text
  have hmem : "a.b1.C" ∈ ofText text := by decide +kernel
  exact ⟨hmem, (candidates_of_text text).1 _ hmem, (candidates_of_text text).2⟩

end Candidates

end RefScan
