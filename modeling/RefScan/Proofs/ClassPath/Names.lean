import RefScan.ClassPath.Source
import RefScan.Proofs.Source

/-!
# The names behind files

The names on the way to a unit end in those of its type name. So every name that can be located is
among the ends of the ways to files, and a class path over a tree resolves finitely many names.
-/

namespace RefScan.ClassPath

def unitSuffix : List Char := '.' :: unitExtension

def nameAt? (names : List String) : Option String :=
  let cs := Text.joined '.' (names.map String.toList)
  if unitSuffix.isSuffixOf cs then some (String.ofList (cs.take (cs.length - unitSuffix.length)))
  else none

/-- Every name by which a file might be located from some directory. -/
def namesOf (l : Location) : List String :=
  (List.range (l.length + 1)).filterMap fun n => nameAt? (l.drop n)

def handles (tree : FileTree) : List TypeName :=
  (tree.files.flatMap namesOf).map TypeName.mk

theorem identifier_of_mem_fields {name : String} (h : isQualifiedName name = true)
    (hpart : part ∈ Text.fields '.' name.toList) :
    part ≠ [] ∧ ∀ c ∈ part, isIdentifierChar c = true := by
  have := List.all_eq_true.mp h part hpart
  simpa only [Bool.and_eq_true, List.all_eq_true, Bool.not_eq_true', List.isEmpty_eq_false_iff]
    using this

theorem slash_not_mem_of_isQualifiedName {name : String} (h : isQualifiedName name = true) :
    '/' ∉ name.toList := by
  intro hm
  rw [← Text.joined_fields_self '.' name.toList] at hm
  rcases Text.mem_joined hm with hm | ⟨part, hpart, hm⟩
  · exact absurd hm (by decide)
  · exact absurd ((identifier_of_mem_fields h hpart).2 _ hm) (by decide)

theorem unitPath_toList (name : String) :
    (TypeName.unitPath ⟨name⟩).toList = Text.replace '.' '/' name.toList ++ unitSuffix := by
  simp [TypeName.unitPath, TypeName.internal, unitSuffix, unitExtension]

theorem fields_unitPath {name : String} (h : isQualifiedName name = true) :
    ∃ dirs stem, Text.fields '.' name.toList = dirs ++ [stem] ∧
      Text.fields '/' (TypeName.unitPath ⟨name⟩).toList = dirs ++ [stem ++ unitSuffix] := by
  have hsuffix : '/' ∉ unitSuffix := by decide
  obtain ⟨dirs, stem, hname, hpath⟩ :=
    Text.fields_append_of_not_mem hsuffix (Text.replace '.' '/' name.toList)
  rw [Text.fields_replace (slash_not_mem_of_isQualifiedName h)] at hname
  rw [← unitPath_toList] at hpath
  exact ⟨dirs, stem, hname, hpath⟩

theorem isName_of_identifier {part : List Char} (hne : part ≠ [])
    (h : ∀ c ∈ part, isIdentifierChar c = true) :
    Path.IsName part ∧ Path.IsName (part ++ unitSuffix) := by
  have hdot : '.' ∉ part := fun hm => absurd (h _ hm) (by decide)
  have hslash : '/' ∉ part := fun hm => absurd (h _ hm) (by decide)
  obtain ⟨c, cs, rfl⟩ := List.exists_cons_of_ne_nil hne
  have hc : c ≠ '.' := by
    rintro rfl
    exact hdot List.mem_cons_self
  have hsuffix : '/' ∉ unitSuffix := by decide
  refine ⟨⟨by simp, hslash, by simp [hc], by simp [hc]⟩, by simp, ?_, by simp [hc], by simp [hc]⟩
  rw [List.mem_append, not_or]
  exact ⟨hslash, hsuffix⟩

theorem isName_of_mem_fields_unitPath {name : String} (h : isQualifiedName name = true) :
    ∀ q ∈ Text.fields '/' (TypeName.unitPath ⟨name⟩).toList, Path.IsName q := by
  obtain ⟨dirs, stem, hname, hpath⟩ := fields_unitPath h
  intro q hq
  rw [hpath] at hq
  have hpart {part : List Char} (hm : part ∈ dirs ++ [stem]) :=
    identifier_of_mem_fields h (hname ▸ hm)
  rcases List.mem_append.mp hq with hq | hq
  · have hid := hpart (List.mem_append_left _ hq)
    exact (isName_of_identifier hid.1 hid.2).1
  · have hid := hpart (List.mem_append_right _ List.mem_cons_self)
    rw [List.mem_singleton.mp hq]
    exact (isName_of_identifier hid.1 hid.2).2

theorem nameAt?_unitPath {name : String} (h : isQualifiedName name = true) :
    nameAt? ((Text.fields '/' (TypeName.unitPath ⟨name⟩).toList).map String.ofList) =
      some name := by
  have hj : Text.joined '.' (((Text.fields '/' (TypeName.unitPath ⟨name⟩).toList).map
      String.ofList).map String.toList) = name.toList ++ unitSuffix := by
    rw [List.map_map]
    have : String.toList ∘ String.ofList = id := by
      funext cs
      simp
    rw [this, List.map_id, Text.joined_fields, unitPath_toList, Text.replace_append,
      Text.replace_replace_of_not_mem (slash_not_mem_of_isQualifiedName h)]
    rfl
  simp only [nameAt?, hj]
  rw [if_pos (List.isSuffixOf_iff_suffix.mpr (List.suffix_append _ _))]
  simp

theorem isAbsolute_unitPath {name : String} (h : isQualifiedName name = true) :
    (⟨TypeName.unitPath ⟨name⟩⟩ : Path).isAbsolute = false := by
  have hs := isName_of_mem_fields_unitPath h
  cases hc : (TypeName.unitPath ⟨name⟩).toList with
  | nil => simp [Path.isAbsolute, Path.chars, hc]
  | cons c cs =>
    by_cases hcs : c = '/'
    · subst hcs
      rw [hc, Text.fields_cons_self] at hs
      exact absurd rfl (hs [] (List.mem_cons_self ..)).ne_nil
    · simp [Path.isAbsolute, Path.chars, hc, hcs]

theorem mem_files_of_isFile {tree : FileTree} {p : Path} (h : tree.isFile p = true) :
    ∃ l, tree.follow p = .ok l ∧ l ∈ tree.files := by
  unfold FileTree.isFile FileTree.read at h
  cases hf : tree.follow p with
  | error e => simp [hf, bind, Except.bind, Except.toOption] at h
  | ok l =>
    refine ⟨l, rfl, ?_⟩
    simp only [hf, bind, Except.bind] at h
    unfold FileTree.lookup at h
    by_cases hl : l = []
    · simp [hl, Except.toOption] at h
    · rw [if_neg hl] at h
      cases he : tree.entries[l]? with
      | none => simp [he, Except.toOption] at h
      | some e =>
        cases e with
        | directory => simp [he, Except.toOption] at h
        | file bytes =>
          exact List.mem_filterMap.mpr
            ⟨(l, .file bytes), Std.ExtTreeMap.mem_toList_iff_getElem?_eq_some.mpr he, rfl⟩

theorem follow_descend {tree : FileTree} {p : Path} {l : Location} (h : tree.follow p = .ok l) :
    ∃ here, tree.descend here p.pieces = .ok l := by
  unfold FileTree.follow at h
  split at h
  · simp at h
  · split at h
    · simp at h
    · split at h
      · simp at h
      · exact ⟨_, h⟩

theorem mem_handles_of_locate {cp : ClassPath} {tree : FileTree} {name : String} {p : Path}
    (h : cp.locate tree name = some p) : ⟨name⟩ ∈ handles tree := by
  unfold locate at h
  split at h
  · rename_i hq
    have hf := List.find?_some h
    obtain ⟨root, _, rfl⟩ := List.mem_map.mp (List.mem_of_find?_eq_some h)
    obtain ⟨l, hl, hm⟩ := mem_files_of_isFile hf
    obtain ⟨here, hd⟩ := follow_descend hl
    obtain ⟨front, hp, -⟩ :=
      Path.exists_pieces_join root ⟨TypeName.unitPath ⟨name⟩⟩ (isAbsolute_unitPath hq)
    rw [hp, FileTree.descend_append_iff] at hd
    obtain ⟨mid, -, hd⟩ := hd
    have hl := FileTree.descend_names (isName_of_mem_fields_unitPath hq) hd
    refine List.mem_map_of_mem (List.mem_flatMap.mpr ⟨l, hm, ?_⟩)
    refine List.mem_filterMap.mpr ⟨mid.length, ?_, ?_⟩
    · rw [List.mem_range, hl, List.length_append]
      omega
    · rw [hl, List.drop_left]
      exact nameAt?_unitPath hq
  · simp at h

theorem finite_resolvable (cp : ClassPath) (tree : FileTree) :
    (cp.source tree).resolvable.Finite := by
  refine (handles tree).finite_toSet.subset ?_
  rintro t ⟨name, hname⟩
  have hname : cp.resolve tree name = .ok t := hname
  unfold resolve at hname
  split at hname
  · cases hname
    exact mem_handles_of_locate ‹_›
  · cases hname

end RefScan.ClassPath
