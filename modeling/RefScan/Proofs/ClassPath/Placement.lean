import RefScan.Proofs.ClassPath
import RefScan.Proofs.ClassPath.Names
import RefScan.Proofs.FileTree

/-!
# Where units lie

Names and places go together: the unit of a name lies down some names from its root, and at that
place it is the unit of this name and of no other (`typeNameFor?_unitBelow`). All steps from the
root to a located unit lead down, whatever the name that was asked for looks like, so a look-up
stays inside its root (`located_inside_root`).
-/

namespace RefScan.ClassPath

variable {cp : ClassPath} {tree : FileTree} {root p : Path} {name : String}

-- ---------------------------------------------------------------------------
-- From names to places
-- ---------------------------------------------------------------------------

def unitNames (name : String) : List (List Char) :=
  Text.fields '/' (TypeName.unitPath ⟨name⟩).toList

theorem unitNames_ne_nil (name : String) : unitNames name ≠ [] := Text.fields_ne_nil _ _

theorem unitBelow_eq (name : String) (root : Path) :
    unitBelow name root = root.join (.ofNames (unitNames name)) := by
  simp only [unitBelow, Path.ofNames, unitNames, Text.joined_fields_self, String.ofList_toList]

-- ---------------------------------------------------------------------------
-- From places to names
-- ---------------------------------------------------------------------------

theorem mapM_segment_named (names : List (List Char)) :
    (names.map Path.Component.named).mapM segment? = some names := by
  induction names with
  | nil => rfl
  | cons name names ih => simp [List.mapM_cons, segment?, ih]

theorem guard_bind_eq_some {c : Prop} [Decidable c] {f : Unit → Option α} :
    (guard c >>= f) = some a ↔ c ∧ f () = some a := by
  by_cases hc : c
  · have hguard : (guard c : Option Unit) = some () := if_pos hc
    rw [hguard]
    simp [hc]
  · have hguard : (guard c : Option Unit) = none := if_neg hc
    rw [hguard]
    simp [hc]

/-- A file is the unit of a name if it has the right extension and the way to it spells the name. -/
theorem typeNameFor?_join_iff {dirs : List (List Char)} {file : List Char}
    (hn : ∀ n ∈ dirs ++ [file], Path.IsName n) :
    typeNameFor? root (root.join (.ofNames (dirs ++ [file]))) = some name ↔
      ∃ stem, file = stem ++ unitSuffix ∧ stem ≠ [] ∧
        name = String.ofList (Text.joined '.' (dirs ++ [stem])) ∧ isQualifiedName name = true := by
  have hsplit {stem : List Char} : Path.splitExtension file = (stem, some unitExtension) ↔
      file = stem ++ unitSuffix ∧ stem ≠ [] := by
    have hdot : '.' ∉ unitExtension := by decide
    simp [Path.splitExtension_eq_some_iff, hdot, unitSuffix]
  rw [typeNameFor?, Path.relativeTo?_join root (by simp) hn, Option.bind_eq_bind, Option.bind_some,
    mapM_segment_named, Option.bind_eq_bind, Option.bind_some, List.getLast?_concat,
    List.dropLast_concat, Option.bind_eq_bind, Option.bind_some]
  constructor
  · intro h
    split at h
    rename_i stem extension hfile
    obtain ⟨hunit, hrest⟩ := guard_bind_eq_some.mp h
    obtain ⟨hq, hname⟩ := guard_bind_eq_some.mp hrest
    cases hname
    obtain ⟨hstem, hne⟩ := hsplit.mp (hunit ▸ hfile)
    exact ⟨stem, hstem, hne, rfl, hq⟩
  · rintro ⟨stem, hstem, hne, rfl, hq⟩
    rw [hsplit.mpr ⟨hstem, hne⟩]
    exact guard_bind_eq_some.mpr ⟨rfl, guard_bind_eq_some.mpr ⟨hq, rfl⟩⟩

theorem typeNameFor?_unitBelow (h : isQualifiedName name = true) (root : Path) :
    typeNameFor? root (unitBelow name root) = some name := by
  obtain ⟨dirs, stem, hname, hpath⟩ := fields_unitPath h
  have hn := isName_of_mem_fields_unitPath h
  rw [hpath] at hn
  rw [unitBelow_eq, unitNames, hpath, typeNameFor?_join_iff hn]
  have hstem := identifier_of_mem_fields h (hname ▸ List.mem_append_right dirs List.mem_cons_self)
  refine ⟨stem, rfl, hstem.1, ?_, h⟩
  rw [← hname, Text.joined_fields_self, String.ofList_toList]

theorem unitBelow_inj {other : String} (h : isQualifiedName name = true)
    (ho : isQualifiedName other = true) (heq : unitBelow name root = unitBelow other root) :
    name = other := by
  have hname := typeNameFor?_unitBelow h root
  rw [heq, typeNameFor?_unitBelow ho] at hname
  exact (Option.some.inj hname).symm

-- ---------------------------------------------------------------------------
-- Look-ups
-- ---------------------------------------------------------------------------

theorem exists_root_of_locate (h : cp.locate tree name = some p) :
    isQualifiedName name = true ∧ ∃ root ∈ cp.roots,
      p = unitBelow name root ∧ ∃ bytes, tree.FileAt p bytes := by
  obtain ⟨hq, before, root, rest, hroots, -, hfile, rfl⟩ := locate_eq_some_iff.mp h
  exact ⟨hq, root, by simp [hroots], rfl, hfile⟩

/-- A located unit lies inside the root it was located in: the path goes on from the root by names
only, it leads to what lies down these names from there, and it spells the name that was asked for.
So no two names are located at one path in one root. -/
theorem located_inside_root (h : cp.locate tree name = some p) :
    (∃ root ∈ cp.roots, ∃ way : Path, p = root.join way ∧ way.isAbsolute = false ∧
      (∀ piece ∈ way.pieces, Path.IsName piece) ∧ way.components = way.pieces.map .named ∧
      (∃ base, tree.IsBase root base ∧
        tree.follow p = .ok (base ++ way.pieces.map String.ofList)) ∧
      typeNameFor? root p = some name) ∧
    (∀ root other, cp.locate tree other = some p → p = unitBelow name root →
      p = unitBelow other root → other = name) ∧
    ∀ root other, cp.roots = [root] → cp.locate tree other = some p → other = name := by
  obtain ⟨hq, root, hroot, hp, bytes, l, hl, -⟩ := exists_root_of_locate h
  have hn := isName_of_mem_fields_unitPath hq
  have hpieces := Path.pieces_ofNames (unitNames_ne_nil name) hn
  have hbelow := unitBelow_eq name root
  have hone {root : Path} {other : String} (ho : cp.locate tree other = some p)
      (hname : p = unitBelow name root) (hother : p = unitBelow other root) : other = name :=
    unitBelow_inj (exists_root_of_locate ho).1 hq (hother.symm.trans hname)
  refine ⟨⟨root, hroot, .ofNames (unitNames name), hp.trans hbelow, Path.isAbsolute_ofNames hn,
    ?_, ?_, ?_, hp ▸ typeNameFor?_unitBelow hq root⟩, fun _ _ => hone, ?_⟩
  · rwa [hpieces]
  · rw [hpieces]
    exact Path.components_ofNames (unitNames_ne_nil name) hn
  · rw [hp, hbelow] at hl
    obtain ⟨base, hbase, rfl⟩ := FileTree.follow_join (unitNames_ne_nil name) hn hl
    rw [hp, hbelow, hpieces]
    exact ⟨base, hbase, hl⟩
  · intro only other hroots ho
    obtain ⟨-, root', hroot', hother, -⟩ := exists_root_of_locate ho
    rw [hroots, List.mem_singleton] at hroot hroot'
    subst hroot hroot'
    exact hone ho hp hother

/-- The root is written with more slashes and dots than it needs, and the type is named like the
extension. -/
theorem located_inside_root_roundabout :
    let entries : List (Location × FileEntry) := [(["cp"], .directory), (["cp", "a"], .directory),
      (["cp", "a", "class.class"], .file [])]
    let tree : FileTree := { entries := .ofList entries }
    let cp : ClassPath := ⟨[⟨".//cp/./"⟩]⟩
    let p : Path := ⟨".//cp/./a/class.class"⟩
    cp.locate tree "a.class" = some p ∧ typeNameFor? ⟨".//cp/./"⟩ p = some "a.class" ∧
      (∃ base way, tree.IsBase ⟨".//cp/./"⟩ base ∧ tree.follow p = .ok (base ++ way)) ∧
      ∀ other, cp.locate tree other = some p → other = "a.class" := by
  intro entries tree cp p
  have h : cp.locate tree "a.class" = some p := by decide +kernel
  obtain ⟨⟨root, hroot, way, -, -, -, -, ⟨base, hbase, hfollow⟩, hname⟩, -, hone⟩ :=
    located_inside_root h
  cases List.mem_singleton.mp hroot
  exact ⟨h, hname, ⟨base, _, hbase, hfollow⟩, fun other => hone _ other rfl⟩

end RefScan.ClassPath
