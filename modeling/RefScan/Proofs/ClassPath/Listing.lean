import RefScan.Proofs.ClassPath.Placement

/-!
# Listings of class paths

A listing goes from files to names and a look-up from names to files. All that a look-up finds is
listed. What is listed and not found comes from files with dots in the wrong places, or with paths
that are too long to follow; where there are no such files, the two agree
(`listTypes_agrees_with_locate`).
-/

namespace RefScan.ClassPath

variable {cp : ClassPath} {tree : FileTree} {root p : Path} {name : String} {names : List String}

-- ---------------------------------------------------------------------------
-- Files below a root
-- ---------------------------------------------------------------------------

/-- There is a file down these names from a root, and none of them starts with a dot. -/
structure Shows (tree : FileTree) (root : Path) (names : List String) : Prop where
  ne_nil : names ≠ []
  file : ∃ base bytes, tree.follow root = .ok base ∧
    tree.lookup (base ++ names) = some (.file bytes)
  visible : ∀ n ∈ names, n.toList.head? ≠ some '.'

/-- A file that can be seen below one of the roots, and by its place it is the unit of a name. -/
structure HasUnit (cp : ClassPath) (tree : FileTree) (name : String) (root : Path)
    (names : List String) : Prop where
  mem_roots : root ∈ cp.roots
  shows : Shows tree root names
  spells : typeNameFor? root (below root names) = some name

/-- A dot stands in the name of a directory, or in the file's own name before its extension. -/
def IsDotted (names : List String) : Prop :=
  (∃ d ∈ names.dropLast, '.' ∈ d.toList) ∨
    ∃ file ∈ names.getLast?, '.' ∈ (Path.splitExtension file.toList).1

theorem not_isDotted_singleton {file : String}
    (h : '.' ∉ (Path.splitExtension file.toList).1) : ¬ IsDotted [file] := by
  simpa [IsDotted] using h

theorem below_eq (root : Path) (h : names ≠ []) :
    below root names = root.join (.ofNames (names.map String.toList)) := by
  simp [below, h, Path.ofNames]

theorem Shows.eq_of_filesBelow {base : Location} {only : List String} (h : Shows tree root names)
    (hbase : tree.follow root = .ok base) (hfiles : tree.filesBelow base = [only]) :
    names = only := by
  obtain ⟨base', bytes, hbase', hfile⟩ := h.file
  cases hbase.symm.trans hbase'
  have hmem := FileTree.mem_filesBelow.mpr ⟨h.ne_nil, bytes, hfile⟩
  rwa [hfiles, List.mem_singleton] at hmem

theorem Shows.isName (h : Shows tree root names) (hw : tree.WellFormed) :
    ∀ n ∈ names.map String.toList, Path.IsName n := by
  intro n hn
  obtain ⟨base, bytes, -, hfile⟩ := h.file
  obtain ⟨name, hname, rfl⟩ := List.mem_map.mp hn
  exact (hw.isFileName_of_mem hfile hname).isName

theorem begins_below (hn : ∀ n ∈ names.map String.toList, Path.IsName n) :
    (below root names.dropLast).chars <+: (below root names).chars := by
  rcases List.eq_nil_or_concat names with rfl | ⟨dirs, file, rfl⟩
  · exact List.prefix_rfl
  · rw [List.concat_eq_append] at hn ⊢
    rw [List.dropLast_concat, below_eq root (List.concat_ne_nil file dirs)]
    have hfile := Path.isAbsolute_ofNames hn
    by_cases hdirs : dirs = []
    · rw [hdirs] at hfile ⊢
      exact Path.begins_join root hfile
    · rw [List.map_append] at hn
      have hdir := Path.isAbsolute_ofNames fun n hm => hn n (List.mem_append_left _ hm)
      rw [below_eq root hdirs, Path.chars_join root hdir, Path.chars_join root hfile,
        Path.chars_ofNames, Path.chars_ofNames, List.map_append, List.map_singleton,
        Text.joined_append_singleton '/' (by simpa using hdirs), ← List.append_assoc]
      exact List.prefix_append _ _

-- ---------------------------------------------------------------------------
-- What is listed
-- ---------------------------------------------------------------------------

theorem isUnlisted_eq_false_iff : isUnlisted root = false ↔
    root.chars ≠ [] ∧ root.components ≠ [.named ['-']] := by
  simp [isUnlisted]

theorem mem_visited (h : isUnlisted root = false) : p ∈ visited tree root ↔
    ∃ names, Shows tree root names ∧
      FileTree.isTooLong (below root names.dropLast) = false ∧ p = below root names := by
  unfold visited
  rw [if_neg (by simp [h])]
  cases hroot : tree.follow root with
  | error e =>
    refine ⟨fun hm => absurd hm List.not_mem_nil, ?_⟩
    rintro ⟨names, hshows, -⟩
    obtain ⟨base, _, hbase, -⟩ := hshows.file
    cases hroot.symm.trans hbase
  | ok base =>
    simp only [List.mem_map, List.mem_filter, FileTree.mem_filesBelow, isVisited, Bool.and_eq_true,
      List.all_eq_true, bne_iff_ne, Bool.not_eq_true']
    constructor
    · rintro ⟨names, ⟨⟨hne, bytes, hfile⟩, hvisible, hlong⟩, rfl⟩
      exact ⟨names, ⟨hne, ⟨base, bytes, hroot, hfile⟩, hvisible⟩, hlong, rfl⟩
    · rintro ⟨names, hshows, hlong, rfl⟩
      obtain ⟨base', bytes, hbase, hfile⟩ := hshows.file
      cases hroot.symm.trans hbase
      exact ⟨names, ⟨⟨hshows.ne_nil, bytes, hfile⟩, hshows.visible, hlong⟩, rfl⟩

theorem mem_listTypes_iff_visited : name ∈ cp.listTypes tree ↔
    ∃ root ∈ cp.roots, ∃ p ∈ visited tree root, typeNameFor? root p = some name := by
  simp only [listTypes, Std.ExtTreeSet.mem_ofList, List.contains_iff_mem, List.mem_flatMap,
    List.mem_filterMap]

/-- A name is listed for each of its units that can be seen, in a directory that can be opened. -/
theorem mem_listTypes (hroots : ∀ root ∈ cp.roots, isUnlisted root = false) :
    name ∈ cp.listTypes tree ↔ ∃ root names, HasUnit cp tree name root names ∧
      FileTree.isTooLong (below root names.dropLast) = false := by
  rw [mem_listTypes_iff_visited]
  constructor
  · rintro ⟨root, hroot, p, hp, hname⟩
    obtain ⟨names, hshows, hlong, rfl⟩ := (mem_visited (hroots root hroot)).mp hp
    exact ⟨root, names, ⟨hroot, hshows, hname⟩, hlong⟩
  · rintro ⟨root, names, ⟨hroot, hshows, hname⟩, hlong⟩
    have hp := (mem_visited (hroots root hroot)).mpr ⟨names, hshows, hlong, rfl⟩
    exact ⟨root, hroot, _, hp, hname⟩

theorem listTypes_ordered (cp : ClassPath) (tree : FileTree) :
    (cp.listTypes tree).toList.Pairwise (· < ·) :=
  Std.ExtTreeSet.ordered_toList.imp lt_of_compare

-- ---------------------------------------------------------------------------
-- Listings and look-ups
-- ---------------------------------------------------------------------------

theorem head_of_mem_unitNames (h : isQualifiedName name = true) {n : List Char}
    (hn : n ∈ unitNames name) : n.head? ≠ some '.' := by
  obtain ⟨dirs, stem, hname, hpath⟩ := fields_unitPath h
  have hpart {part : List Char} (rest : List Char) (hm : part ∈ dirs ++ [stem]) :
      (part ++ rest).head? ≠ some '.' := by
    obtain ⟨hne, hid⟩ := identifier_of_mem_fields h (hname ▸ hm)
    obtain ⟨c, cs, rfl⟩ := List.exists_cons_of_ne_nil hne
    rintro ⟨⟩
    exact absurd (hid _ List.mem_cons_self) (by decide)
  rw [unitNames, hpath] at hn
  rcases List.mem_append.mp hn with hn | hn
  · simpa using hpart [] (List.mem_append_left _ hn)
  · rw [List.mem_singleton.mp hn]
    exact hpart unitSuffix (List.mem_append_right _ List.mem_cons_self)

theorem exists_unit_of_locate (hroots : ∀ root ∈ cp.roots, root.chars ≠ [])
    (h : cp.locate tree name = some p) : ∃ root names, HasUnit cp tree name root names ∧
      FileTree.isTooLong (below root names.dropLast) = false := by
  obtain ⟨hq, root, hroot, rfl, bytes, l, hl, hfile⟩ := exists_root_of_locate h
  have hn := isName_of_mem_fields_unitPath hq
  have hback : ((unitNames name).map String.ofList).map String.toList = unitNames name := by
    simp [Function.comp_def]
  have hnames : ∀ n ∈ ((unitNames name).map String.ofList).map String.toList, Path.IsName n := by
    rwa [hback]
  have hne : (unitNames name).map String.ofList ≠ [] := by simpa using unitNames_ne_nil name
  have hbelow : below root ((unitNames name).map String.ofList) = unitBelow name root := by
    rw [below_eq root hne, hback, unitBelow_eq]
  rw [unitBelow_eq] at hl
  obtain ⟨base, hbase, rfl⟩ := FileTree.follow_join (unitNames_ne_nil name) hn hl
  have hbase : tree.follow root = .ok base := hbase.resolve_right fun h => hroots root hroot h.1
  refine ⟨root, (unitNames name).map String.ofList, ⟨hroot, ⟨hne, ⟨base, bytes, hbase, hfile⟩, ?_⟩,
    hbelow ▸ typeNameFor?_unitBelow hq root⟩, ?_⟩
  · intro n hm
    obtain ⟨part, hpart, rfl⟩ := List.mem_map.mp hm
    rw [String.toList_ofList]
    exact head_of_mem_unitNames hq hpart
  · rw [Bool.eq_false_iff]
    intro hlong
    have hlong := FileTree.isTooLong_of_begins (begins_below hnames) hlong
    rw [hbelow, unitBelow_eq] at hlong
    exact FileTree.not_follow_of_isTooLong hlong hl

theorem exists_locate_of_file (hq : isQualifiedName name = true) (hroot : root ∈ cp.roots)
    (hfile : tree.FileAt (unitBelow name root) bytes) : ∃ p, cp.locate tree name = some p := by
  have hfound : (cp.roots.find? fun root => tree.isFile (unitBelow name root)).isSome = true :=
    List.find?_isSome.mpr ⟨root, hroot, FileTree.isFile_iff.mpr ⟨bytes, hfile⟩⟩
  obtain ⟨first, hfirst⟩ := Option.isSome_iff_exists.mp hfound
  exact ⟨unitBelow name first, by rw [locate_eq, if_pos hq, hfirst]; rfl⟩

theorem HasUnit.way_eq (h : HasUnit cp tree name root names) (hw : tree.WellFormed)
    (hdots : ¬ IsDotted names) :
    isQualifiedName name = true ∧ unitNames name = names.map String.toList := by
  have hn := h.shows.isName hw
  have hspells := h.spells
  rw [below_eq root h.shows.ne_nil] at hspells
  rcases List.eq_nil_or_concat names with rfl | ⟨dirs, file, rfl⟩
  · exact absurd rfl h.shows.ne_nil
  rw [List.concat_eq_append, List.map_append, List.map_singleton] at hn hspells ⊢
  obtain ⟨stem, hfile, hstem, rfl, hq⟩ := (typeNameFor?_join_iff hn).mp hspells
  have hplain : ∀ part ∈ dirs.map String.toList ++ [stem], '.' ∉ part := by
    intro part hpart hdot
    refine hdots ?_
    rcases List.mem_append.mp hpart with hpart | hpart
    · obtain ⟨d, hd, rfl⟩ := List.mem_map.mp hpart
      exact .inl ⟨d, by simpa using hd, hdot⟩
    · cases List.mem_singleton.mp hpart
      have hsplit : Path.splitExtension file.toList = (stem, some unitExtension) :=
        Path.splitExtension_eq_some_iff.mpr ⟨hfile, hstem, by decide⟩
      refine .inr ⟨file, by simp, ?_⟩
      rwa [hsplit]
  obtain ⟨dirs', stem', hname, hpath⟩ := fields_unitPath hq
  rw [String.toList_ofList, Text.fields_joined (by simp) hplain] at hname
  obtain ⟨rfl, hlast⟩ := List.append_inj' hname rfl
  cases hlast
  exact ⟨hq, hpath.trans (by rw [hfile])⟩

/-- What can be seen is found, but for dots and long paths. -/
theorem HasUnit.exists_locate (h : HasUnit cp tree name root names) (hw : tree.WellFormed)
    (hdots : ¬ IsDotted names) (hlong : FileTree.isTooLong (below root names) = false) :
    ∃ p, cp.locate tree name = some p := by
  obtain ⟨hq, hway⟩ := h.way_eq hw hdots
  obtain ⟨base, bytes, hbase, hfile⟩ := h.shows.file
  rw [below_eq root h.shows.ne_nil] at hlong
  have hfollow := hw.follow_join hbase h.shows.ne_nil hfile hlong
  rw [← hway, ← unitBelow_eq] at hfollow
  exact exists_locate_of_file hq h.mem_roots ⟨_, hfollow, hfile⟩

theorem exists_locate_iff_load :
    (∃ p, cp.locate tree name = some p) ↔ ∃ bytes, cp.load tree ⟨name⟩ = .ok bytes := by
  constructor
  · rintro ⟨p, h⟩
    obtain ⟨bytes, -, hload⟩ := load_of_locate h
    exact ⟨bytes, hload⟩
  · rintro ⟨bytes, h⟩
    cases hl : cp.locate tree name with
    | none => simp [load_of_locate_none hl] at h
    | some p => exact ⟨p, rfl⟩

/-- In a well-formed tree, as every tree is that was built, types are listed in order. A name that
can be located is listed, and a listed name that cannot be located is that of files which have dots
in the wrong places or paths that are too long, and of no others. Where no unit is such a file,
those names are listed that can be located, and these are the ones that resolve and load. The roots
must not be empty or have `-` as their one component: such roots are searched but not listed. -/
theorem listTypes_agrees_with_locate :
    (∀ tree : FileTree, tree.Built → tree.WellFormed) ∧
    ∀ (cp : ClassPath) (tree : FileTree), tree.WellFormed →
      (∀ root ∈ cp.roots, root.chars ≠ [] ∧ root.components ≠ [.named ['-']]) →
      (cp.listTypes tree).toList.Pairwise (· < ·) ∧
      (∀ name p, cp.locate tree name = some p → name ∈ cp.listTypes tree) ∧
      (∀ name ∈ cp.listTypes tree, cp.locate tree name = none →
        (∃ root names, HasUnit cp tree name root names) ∧
        ∀ root names, HasUnit cp tree name root names →
          IsDotted names ∨ FileTree.isTooLong (below root names) = true) ∧
      ((∀ name root names, HasUnit cp tree name root names →
          ¬ IsDotted names ∧ FileTree.isTooLong (below root names) = false) →
        ∀ name, (name ∈ cp.listTypes tree ↔ ∃ p, cp.locate tree name = some p) ∧
          (name ∈ cp.listTypes tree ↔ cp.resolve tree name = .ok ⟨name⟩) ∧
          (name ∈ cp.listTypes tree ↔ ∃ bytes, cp.load tree ⟨name⟩ = .ok bytes)) := by
  refine ⟨fun tree hbuilt => hbuilt.wellFormed, fun cp tree hw hroots => ?_⟩
  have hlisted : ∀ root ∈ cp.roots, isUnlisted root = false :=
    fun root hroot => isUnlisted_eq_false_iff.mpr (hroots root hroot)
  have hlocated {name : String} (h : ∃ p, cp.locate tree name = some p) :
      name ∈ cp.listTypes tree := by
    obtain ⟨p, h⟩ := h
    exact (mem_listTypes hlisted).mpr
      (exists_unit_of_locate (fun root hroot => (hroots root hroot).1) h)
  refine ⟨listTypes_ordered cp tree, fun name p h => hlocated ⟨p, h⟩, ?_, ?_⟩
  · intro name hname hnone
    obtain ⟨root, names, hunit, -⟩ := (mem_listTypes hlisted).mp hname
    refine ⟨⟨root, names, hunit⟩, fun root names hunit => ?_⟩
    by_cases hdots : IsDotted names
    · exact .inl hdots
    · refine .inr (Bool.of_not_eq_false fun hlong => ?_)
      obtain ⟨p, hp⟩ := hunit.exists_locate hw hdots hlong
      cases hnone.symm.trans hp
  · intro hplain name
    have hiff : name ∈ cp.listTypes tree ↔ ∃ p, cp.locate tree name = some p := by
      refine ⟨fun h => ?_, hlocated⟩
      obtain ⟨root, names, hunit, -⟩ := (mem_listTypes hlisted).mp h
      obtain ⟨hdots, hlong⟩ := hplain name root names hunit
      exact hunit.exists_locate hw hdots hlong
    refine ⟨hiff, ?_, hiff.trans exists_locate_iff_load⟩
    rw [resolve_eq_ok_iff, ← exists_locate_iff_load]
    simpa using hiff

/-- A directory with a dot in its name holds a unit that is listed and not located. Seen from the
directory beside it, there is nothing of the kind. -/
theorem listTypes_agrees_with_locate_dotted :
    let write (tree : FileTree) (p : Path) := (tree.write p []).toOption.getD {}
    let tree := write (write (.rootedAt []) ⟨"out/a/B.class"⟩) ⟨"out/a.b/C.class"⟩
    let outer : ClassPath := ⟨[⟨"out"⟩]⟩
    let inner : ClassPath := ⟨[⟨"out/a/"⟩]⟩
    tree.Built ∧ "a.B" ∈ outer.listTypes tree ∧
      ("a.b.C" ∈ outer.listTypes tree ∧ outer.locate tree "a.b.C" = none ∧
        ∃ root names, HasUnit outer tree "a.b.C" root names ∧
          (IsDotted names ∨ FileTree.isTooLong (below root names) = true)) ∧
      "B" ∈ inner.listTypes tree ∧
      ∀ name, name ∈ inner.listTypes tree ↔ inner.resolve tree name = .ok ⟨name⟩ := by
  intro write tree outer inner
  have hwritten {t : FileTree} {p : Path} (h : (t.write p []).toOption.isSome = true) :
      t.write p [] = .ok (write t p) := by
    simp only [write]
    cases hp : t.write p [] with
    | error e => simp [hp, Except.toOption] at h
    | ok t' => rfl
  have hbuilt : tree.Built :=
    .write (.write (.rootedAt (by simp)) (hwritten (by decide +kernel)))
      (hwritten (by decide +kernel))
  have hw : tree.WellFormed := listTypes_agrees_with_locate.1 tree hbuilt
  have houter : ∀ root ∈ outer.roots, root.chars ≠ [] ∧ root.components ≠ [.named ['-']] := by
    intro root hroot
    cases List.mem_singleton.mp hroot
    decide
  have hinner : ∀ root ∈ inner.roots, root.chars ≠ [] ∧ root.components ≠ [.named ['-']] := by
    intro root hroot
    cases List.mem_singleton.mp hroot
    decide
  obtain ⟨-, hlocated, hdotted, -⟩ := listTypes_agrees_with_locate.2 outer tree hw houter
  obtain ⟨-, hlocated', -, hexact⟩ := listTypes_agrees_with_locate.2 inner tree hw hinner
  have hB : outer.locate tree "a.B" = some ⟨"out/a/B.class"⟩ := by decide +kernel
  have hB' : inner.locate tree "B" = some ⟨"out/a/B.class"⟩ := by decide +kernel
  have hC : "a.b.C" ∈ outer.listTypes tree := by decide +kernel
  have hC' : outer.locate tree "a.b.C" = none := by decide +kernel
  obtain ⟨⟨root, names, hunit⟩, hall⟩ := hdotted _ hC hC'
  refine ⟨hbuilt, hlocated _ _ hB, ⟨hC, hC', root, names, hunit, hall root names hunit⟩,
    hlocated' _ _ hB', fun name => (hexact ?_ name).2.1⟩
  intro name root names hunit
  cases List.mem_singleton.mp hunit.mem_roots
  have hbase : tree.follow ⟨"out/a/"⟩ = .ok ["out", "a"] :=
    FileTree.follow_of_toOption (by decide +kernel)
  have honly : names = ["B.class"] := hunit.shows.eq_of_filesBelow hbase (by decide +kernel)
  rw [honly]
  exact ⟨not_isDotted_singleton (by decide), by decide +kernel⟩

/-- Two roots with a slash at the end. One of them has `-` as its one component, so its unit is
located and not listed. The other one is long, though not too long; the path from there to its unit
is, so this unit is listed and not located. No file has a dot in the wrong place. -/
theorem listTypes_differs_from_locate :
    let entries : List (Location × FileEntry) := [(["-"], .directory),
      (["-", "A.class"], .file []), (["b"], .directory), (["b", "B.class"], .file [])]
    let tree : FileTree := { entries := .ofList entries }
    let long : Path := Path.trailing ⟨"b"⟩ 4090
    let cp : ClassPath := ⟨[⟨"-/"⟩, long]⟩
    tree.WellFormed ∧ (∀ root ∈ cp.roots, root.text ≠ "" ∧ root.text ≠ "-") ∧
      (∀ root ∈ cp.roots, ∀ names, Shows tree root names → ¬ IsDotted names) ∧
      (cp.locate tree "A" = some ⟨"-/A.class"⟩ ∧ "A" ∉ cp.listTypes tree) ∧
      ("B" ∈ cp.listTypes tree ∧ cp.locate tree "B" = none) := by
  -- Nothing below has to count the slashes one by one.
  generalize hn : 4090 = n
  intro entries tree long cp
  have hw : tree.WellFormed := by decide +kernel
  have hdash : tree.follow ⟨"-/"⟩ = .ok ["-"] := FileTree.follow_of_toOption (by decide +kernel)
  have hfits : FileTree.isTooLong long = false := by
    refine decide_eq_false ?_
    rw [FileTree.length_utf8_trailing, ← hn]
    decide
  have hlong : tree.follow long = .ok ["b"] :=
    FileTree.follow_trailing (FileTree.follow_of_toOption (by decide +kernel)) (by decide +kernel)
      hfits
  have hlisted : isUnlisted long = false := by
    have hpieces : Path.pieces ⟨"b"⟩ = [['b']] := by decide
    refine isUnlisted_eq_false_iff.mpr ⟨(FileTree.follow_eq_ok_iff.mp hlong).2.1, ?_⟩
    rw [Path.components_eq, Path.pieces_trailing, hpieces]
    simp [Path.origin, Path.component?, Path.isIdle]
  have hA {names : List String} (h : Shows tree ⟨"-/"⟩ names) : names = ["A.class"] :=
    h.eq_of_filesBelow hdash (by decide +kernel)
  have hB {names : List String} (h : Shows tree long names) : names = ["B.class"] :=
    h.eq_of_filesBelow hlong (by decide +kernel)
  have hunit : below long ["B.class"] = unitBelow "B" long := by
    have hway : unitNames "B" = ["B.class"].map String.toList := by decide
    rw [below_eq long (by simp), unitBelow_eq, hway]
  have hshows : Shows tree long ["B.class"] :=
    ⟨by simp, ⟨["b"], [], hlong, by decide +kernel⟩, by decide⟩
  have hspells := typeNameFor?_unitBelow (by decide : isQualifiedName "B" = true) long
  have htoo : FileTree.isTooLong (unitBelow "B" long) = true := by
    refine FileTree.isTooLong_join (isAbsolute_unitPath (by decide)) ?_
    rw [FileTree.length_utf8_trailing, ← hn]
    decide
  refine ⟨hw, ?_, ?_, ⟨?_, ?_⟩, ?_, ?_⟩
  · intro root hroot
    rcases List.mem_cons.mp hroot with rfl | hroot
    · decide
    · cases List.mem_singleton.mp hroot
      refine ⟨fun h => ?_, fun h => ?_⟩ <;>
      · have hchars := congrArg String.toList h
        simp [long, Path.trailing] at hchars
  · intro root hroot names h
    rcases List.mem_cons.mp hroot with rfl | hroot
    · rw [hA h]
      exact not_isDotted_singleton (by decide)
    · cases List.mem_singleton.mp hroot
      rw [hB h]
      exact not_isDotted_singleton (by decide)
  · have hfile : tree.FileAt (unitBelow "A" ⟨"-/"⟩) [] :=
      ⟨["-", "A.class"], FileTree.follow_of_toOption (by decide +kernel), by decide +kernel⟩
    exact locate_eq_some_iff.mpr
      ⟨by decide, [], ⟨"-/"⟩, [long], rfl, by simp, ⟨[], hfile⟩, by decide⟩
  · rw [mem_listTypes_iff_visited]
    rintro ⟨root, hroot, p, hp, hname⟩
    rcases List.mem_cons.mp hroot with rfl | hroot
    · rw [visited, if_pos (by decide)] at hp
      cases hp
    · cases List.mem_singleton.mp hroot
      obtain ⟨names, h, -, rfl⟩ := (mem_visited hlisted).mp hp
      rw [hB h, hunit, hspells] at hname
      exact absurd hname (by decide)
  · rw [mem_listTypes_iff_visited]
    have hp := (mem_visited hlisted).mpr ⟨["B.class"], hshows, hfits, rfl⟩
    exact ⟨long, by simp [cp], _, hp, hunit ▸ hspells⟩
  · cases h : cp.locate tree "B" with
    | none => rfl
    | some p =>
      obtain ⟨-, root, hroot, rfl, bytes, l, hl, hfile⟩ := exists_root_of_locate h
      rcases List.mem_cons.mp hroot with rfl | hroot
      · have hnone : (tree.follow (unitBelow "B" ⟨"-/"⟩)).toOption = none := by decide +kernel
        rw [hl] at hnone
        cases hnone
      · cases List.mem_singleton.mp hroot
        exact absurd hl (FileTree.not_follow_of_isTooLong htoo)

end RefScan.ClassPath
