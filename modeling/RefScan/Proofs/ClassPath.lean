import RefScan.ClassPath.Source

/-!
# Look-ups in class paths

A name made of identifiers is looked up in one directory after the other, and the first one with a
file in the right place decides (`load_eq_ok_iff`). Loading and resolving go by the same file, so
they succeed together, and there is but one way for them to fail.
-/

namespace RefScan

namespace FileTree

variable {tree : FileTree} {p : Path}

def FileAt (tree : FileTree) (p : Path) (bytes : Bytes) : Prop :=
  ∃ l, tree.follow p = .ok l ∧ tree.lookup l = some (.file bytes)

theorem read_eq_ok_iff : tree.read p = .ok bytes ↔ tree.FileAt p bytes := by
  unfold read FileAt
  cases tree.follow p with
  | error e => simp [bind, Except.bind]
  | ok l =>
    cases hl : tree.lookup l with
    | none => simp [bind, Except.bind, hl]
    | some entry => cases entry <;> simp [bind, Except.bind, hl]

theorem isFile_iff : tree.isFile p = true ↔ ∃ bytes, tree.FileAt p bytes := by
  simp only [isFile, ← read_eq_ok_iff]
  cases tree.read p <;> simp [Except.toOption]

end FileTree

namespace ClassPath

variable {cp : ClassPath} {tree : FileTree} {name : String}

def unitBelow (name : String) (root : Path) : Path := root.join ⟨TypeName.unitPath ⟨name⟩⟩

/-- In the first root that has a file for the unit of a name, that file has these bytes. Whatever
else stands in its place in the roots before, a directory even, does not count. -/
def FirstUnit (tree : FileTree) (name : String) (roots : List Path) (bytes : Bytes) : Prop :=
  ∃ before root rest, roots = before ++ root :: rest ∧
    (∀ r ∈ before, ∀ other, ¬ tree.FileAt (unitBelow name r) other) ∧
    tree.FileAt (unitBelow name root) bytes

theorem locate_eq (cp : ClassPath) (tree : FileTree) (name : String) :
    cp.locate tree name = if isQualifiedName name then
      (cp.roots.find? fun root => tree.isFile (unitBelow name root)).map (unitBelow name)
    else none := by
  have hbelow : unitBelow name = fun root => root.join ⟨TypeName.unitPath ⟨name⟩⟩ := rfl
  simp only [locate, List.find?_map, Function.comp_def, hbelow]

theorem locate_eq_some_iff {path : Path} :
    cp.locate tree name = some path ↔ isQualifiedName name = true ∧
      ∃ before root rest, cp.roots = before ++ root :: rest ∧
        (∀ r ∈ before, ∀ other, ¬ tree.FileAt (unitBelow name r) other) ∧
        (∃ bytes, tree.FileAt (unitBelow name root) bytes) ∧ path = unitBelow name root := by
  rw [locate_eq]
  split
  · rename_i hq
    simp only [Option.map_eq_some_iff, List.find?_eq_some_iff_append, FileTree.isFile_iff,
      Bool.not_eq_true', Bool.eq_false_iff, ne_eq, not_exists, hq, true_and]
    constructor
    · rintro ⟨root, ⟨hfile, before, rest, hroots, hbefore⟩, rfl⟩
      exact ⟨before, root, rest, hroots, hbefore, hfile, rfl⟩
    · rintro ⟨before, root, rest, hroots, hbefore, hfile, rfl⟩
      exact ⟨root, ⟨hfile, before, rest, hroots, hbefore⟩, rfl⟩
  · rename_i hq
    simp [hq]

theorem load_of_locate {path : Path} (h : cp.locate tree name = some path) :
    ∃ bytes, tree.FileAt path bytes ∧ cp.load tree ⟨name⟩ = .ok bytes := by
  obtain ⟨-, _, _, _, -, -, ⟨bytes, hfile⟩, rfl⟩ := locate_eq_some_iff.mp h
  refine ⟨bytes, hfile, ?_⟩
  simp only [load, h, FileTree.read_eq_ok_iff.mpr hfile]

theorem load_of_locate_none (h : cp.locate tree name = none) :
    cp.load tree ⟨name⟩ = .error (.notFound name) := by
  simp only [load, h]

theorem load_eq_ok_iff : cp.load tree ⟨name⟩ = .ok bytes ↔
    isQualifiedName name = true ∧ FirstUnit tree name cp.roots bytes := by
  constructor
  · intro h
    cases hl : cp.locate tree name with
    | none => simp [load_of_locate_none hl] at h
    | some path =>
      obtain ⟨other, hother, hload⟩ := load_of_locate hl
      cases h.symm.trans hload
      obtain ⟨hq, before, root, rest, hroots, hbefore, -, rfl⟩ := locate_eq_some_iff.mp hl
      exact ⟨hq, before, root, rest, hroots, hbefore, hother⟩
  · rintro ⟨hq, before, root, rest, hroots, hbefore, hfile⟩
    have hl : cp.locate tree name = some (unitBelow name root) :=
      locate_eq_some_iff.mpr ⟨hq, before, root, rest, hroots, hbefore, ⟨bytes, hfile⟩, rfl⟩
    simp only [load, hl, FileTree.read_eq_ok_iff.mpr hfile]

theorem resolve_eq_ok_iff : cp.resolve tree name = .ok t ↔
    t = ⟨name⟩ ∧ ∃ bytes, cp.load tree ⟨name⟩ = .ok bytes := by
  cases hl : cp.locate tree name with
  | none => simp [resolve, hl, load_of_locate_none hl]
  | some path =>
    obtain ⟨bytes, -, hload⟩ := load_of_locate hl
    simp [resolve, hl, hload, eq_comm]

theorem not_found_of_not_load (h : ∀ bytes, cp.load tree ⟨name⟩ ≠ .ok bytes) :
    cp.load tree ⟨name⟩ = .error (.notFound name) ∧
      cp.resolve tree name = .error (.notFound name) := by
  cases hl : cp.locate tree name with
  | none => exact ⟨load_of_locate_none hl, by simp only [resolve, hl]⟩
  | some path =>
    obtain ⟨bytes, -, hload⟩ := load_of_locate hl
    exact absurd hload (h bytes)

def extended (cp : ClassPath) (more : List Path) : ClassPath := ⟨cp.roots ++ more⟩

theorem load_extended (more : List Path) (h : cp.load tree t = .ok bytes) :
    (cp.extended more).load tree t = .ok bytes := by
  obtain ⟨hq, before, root, rest, hroots, hfirst⟩ := load_eq_ok_iff.mp h
  refine load_eq_ok_iff.mpr ⟨hq, before, root, rest ++ more, ?_, hfirst⟩
  simp [extended, hroots]

theorem resolve_extended (more : List Path) (h : cp.resolve tree name = .ok t) :
    (cp.extended more).resolve tree name = .ok t := by
  obtain ⟨rfl, bytes, hload⟩ := resolve_eq_ok_iff.mp h
  exact resolve_eq_ok_iff.mpr ⟨rfl, bytes, load_extended more hload⟩

end ClassPath

end RefScan
