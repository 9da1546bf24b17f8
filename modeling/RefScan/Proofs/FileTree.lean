import RefScan.FileTree
import RefScan.Proofs.Path

/-!
# File trees

In a tree of files everything lies in a directory and has a name that a file can have
(`WellFormed`). Whatever is built by making directories and by writing and removing files is such a
tree (`Built.wellFormed`). There every file is found under the path down its names, from any path to
one of the directories above it, unless that path is too long (`WellFormed.follow_join`). The other
way round, a path that goes down names leads to what lies below its start, and nowhere else
(`follow_join`).
-/

namespace RefScan.FileTree

variable {t t' : FileTree} {p q : Path} {l here there : Location}

-- ---------------------------------------------------------------------------
-- Paths that lead somewhere
-- ---------------------------------------------------------------------------

def start (t : FileTree) (p : Path) : Location := if p.isAbsolute then [] else t.workingDirectory

theorem follow_eq_ok_iff : t.follow p = .ok l ↔
    '\x00' ∉ p.chars ∧ p.chars ≠ [] ∧ isTooLong p = false ∧
      t.descend (t.start p) p.pieces = .ok l := by
  unfold follow start
  split
  · simp_all
  · split
    · simp_all
    · split <;> simp_all

theorem follow_of_toOption (h : (t.follow p).toOption = some l) : t.follow p = .ok l := by
  cases hp : t.follow p <;> simp_all [Except.toOption]

theorem isTooLong_of_begins (h : p.chars <+: q.chars) (hp : isTooLong p = true) :
    isTooLong q = true := by
  obtain ⟨rest, hq⟩ := h
  have hlen : (Text.utf8 p.chars).length ≤ (Text.utf8 q.chars).length := by
    simp [← hq, Text.utf8]
  exact decide_eq_true (Nat.le_trans (of_decide_eq_true hp) hlen)

theorem not_follow_of_isTooLong (h : isTooLong p = true) : t.follow p ≠ .ok l := by
  intro hp
  rw [(follow_eq_ok_iff.mp hp).2.2.1] at h
  cases h

theorem isTooLong_join (hq : q.isAbsolute = false) (h : pathLimit ≤
    (Text.utf8 p.chars).length + (Text.utf8 q.chars).length) : isTooLong (p.join q) = true := by
  refine decide_eq_true (Nat.le_trans h ?_)
  rw [Path.chars_join p hq]
  simp only [Text.utf8, List.flatMap_append, List.length_append]
  omega

theorem length_utf8_trailing (p : Path) (n : Nat) :
    (Text.utf8 (p.trailing n).chars).length = (Text.utf8 p.chars).length + n := by
  rw [Path.chars_trailing]
  induction n with
  | zero => simp
  | succ n ih =>
    rw [List.replicate_succ', ← List.append_assoc, Text.utf8, List.flatMap_append,
      List.length_append, ← Text.utf8, ih]
    rfl

theorem lookup_of_descend_cons (h : t.descend here (piece :: pieces) = .ok l) :
    t.lookup here = some .directory := by
  rw [descend] at h
  split at h
  · cases h
  · cases h
  · assumption

theorem descend_idle_iff :
    t.descend here [[]] = .ok l ↔ t.lookup here = some .directory ∧ l = here := by
  constructor
  · intro h
    have hdir := lookup_of_descend_cons h
    simp only [descend, hdir, Path.isIdle] at h
    cases h
    exact ⟨hdir, rfl⟩
  · rintro ⟨hdir, rfl⟩
    simp [descend, hdir, Path.isIdle]

theorem descend_join_iff {names : List (List Char)} (p : Path) (hne : names ≠ [])
    (hn : ∀ name ∈ names, Path.IsName name) :
    t.descend here (p.join (.ofNames names)).pieces = .ok l ↔
      ∃ mid, t.descend here p.pieces = .ok mid ∧ t.descend mid names = .ok l := by
  obtain ⟨front, hjoin, hfront⟩ :=
    Path.exists_pieces_join p (.ofNames names) (Path.isAbsolute_ofNames hn)
  rw [hjoin, Path.pieces_ofNames hne hn, descend_append_iff]
  rcases hfront with hp | ⟨hp, -⟩
  · simp only [hp, descend_append_iff, descend_idle_iff]
    constructor
    · rintro ⟨mid, hmid, hl⟩
      obtain ⟨name, rest, rfl⟩ := List.exists_cons_of_ne_nil hne
      exact ⟨mid, ⟨mid, hmid, lookup_of_descend_cons hl, rfl⟩, hl⟩
    · rintro ⟨mid, ⟨_, hmid, -, rfl⟩, hl⟩
      exact ⟨mid, hmid, hl⟩
  · rw [hp]

/-- Where names after a path start. An empty path leads nowhere by itself, but names after it start
in the working directory. -/
def IsBase (t : FileTree) (p : Path) (l : Location) : Prop :=
  t.follow p = .ok l ∨ (p.chars = [] ∧ l = t.workingDirectory)

theorem follow_join {names : List (List Char)} (hne : names ≠ [])
    (hn : ∀ name ∈ names, Path.IsName name) (h : t.follow (p.join (.ofNames names)) = .ok l) :
    ∃ base, t.IsBase p base ∧ l = base ++ names.map String.ofList := by
  have habsolute := Path.isAbsolute_ofNames hn
  obtain ⟨hnul, -, -, hdescend⟩ := follow_eq_ok_iff.mp h
  rw [start, Path.isAbsolute_join p habsolute, ← start, descend_join_iff p hne hn] at hdescend
  obtain ⟨mid, hmid, hl⟩ := hdescend
  refine ⟨mid, ?_, descend_names hn hl⟩
  by_cases hp : p.chars = []
  · have hpieces : p.pieces = [[]] := by simp [Path.pieces, hp, Text.fields]
    have hstart : t.start p = t.workingDirectory := by simp [start, Path.isAbsolute, hp]
    rw [hpieces, hstart, descend_idle_iff] at hmid
    exact .inr ⟨hp, hmid.2⟩
  · have hbegins := Path.begins_join p habsolute
    refine .inl (follow_eq_ok_iff.mpr ⟨fun hm => hnul (hbegins.subset hm), hp, ?_, hmid⟩)
    rw [Bool.eq_false_iff]
    exact fun hlong => not_follow_of_isTooLong (isTooLong_of_begins hbegins hlong) h

theorem descend_replicate_nil (h : t.lookup l = some .directory) (n : Nat) :
    t.descend l (List.replicate n []) = .ok l := by
  induction n with
  | zero => rfl
  | succ n ih => simpa [List.replicate_succ, descend, h, Path.isIdle] using ih

theorem follow_trailing {n : Nat} (hp : t.follow p = .ok l) (hl : t.lookup l = some .directory)
    (hlong : isTooLong (p.trailing n) = false) : t.follow (p.trailing n) = .ok l := by
  obtain ⟨hnul, hchars, -, hdescend⟩ := follow_eq_ok_iff.mp hp
  have hstart : t.start (p.trailing n) = t.start p := by
    obtain ⟨c, cs, hcs⟩ := List.exists_cons_of_ne_nil hchars
    simp [start, Path.isAbsolute, Path.chars_trailing, hcs]
  refine follow_eq_ok_iff.mpr ⟨?_, by simp [Path.chars_trailing, hchars], hlong, ?_⟩
  · simp [Path.chars_trailing, hnul]
  · rw [hstart, Path.pieces_trailing, descend_append_iff]
    exact ⟨l, hdescend, descend_replicate_nil hl n⟩

-- ---------------------------------------------------------------------------
-- Files
-- ---------------------------------------------------------------------------

theorem mem_files : l ∈ t.files ↔ ∃ bytes, t.entries[l]? = some (.file bytes) := by
  simp only [files, List.mem_filterMap]
  constructor
  · rintro ⟨⟨l', entry⟩, hmem, hl⟩
    rw [Std.ExtTreeMap.mem_toList_iff_getElem?_eq_some] at hmem
    cases entry with
    | directory => cases hl
    | file bytes =>
      cases hl
      exact ⟨bytes, hmem⟩
  · rintro ⟨bytes, hl⟩
    exact ⟨(l, .file bytes), Std.ExtTreeMap.mem_toList_iff_getElem?_eq_some.mpr hl, rfl⟩

theorem lookup_append_of_ne_nil {names : List String} (h : names ≠ []) :
    t.lookup (l ++ names) = t.entries[l ++ names]? := by
  simp [lookup, h]

theorem mem_filesBelow {names : List String} : names ∈ t.filesBelow l ↔
    names ≠ [] ∧ ∃ bytes, t.lookup (l ++ names) = some (.file bytes) := by
  simp only [filesBelow, List.mem_filterMap, mem_files, Option.ite_none_right_eq_some,
    Option.some.injEq, Bool.and_eq_true, List.isPrefixOf_iff_prefix, decide_eq_true_eq]
  constructor
  · rintro ⟨_, ⟨bytes, hfile⟩, ⟨⟨names', rfl⟩, hlen⟩, rfl⟩
    rw [List.length_append] at hlen
    have hne : names' ≠ [] := by
      rintro rfl
      simp at hlen
    rw [List.drop_left, lookup_append_of_ne_nil hne]
    exact ⟨hne, bytes, hfile⟩
  · rintro ⟨hne, bytes, hfile⟩
    rw [lookup_append_of_ne_nil hne] at hfile
    refine ⟨l ++ names, ⟨bytes, hfile⟩, ⟨List.prefix_append _ _, ?_⟩, List.drop_left⟩
    rw [List.length_append]
    exact Nat.lt_add_of_pos_right (List.length_pos_iff.mpr hne)

-- ---------------------------------------------------------------------------
-- Trees of files
-- ---------------------------------------------------------------------------

structure IsFileName (name : String) : Prop where
  isName : Path.IsName name.toList
  nul : '\x00' ∉ name.toList
  length : (Text.utf8 name.toList).length ≤ nameLimit

/-- Everything lies in a directory and has a possible name. -/
structure WellFormed (t : FileTree) : Prop where
  parent : ∀ {l name entry}, t.lookup (l ++ [name]) = some entry → t.lookup l = some .directory
  isFileName : ∀ {l name entry}, t.lookup (l ++ [name]) = some entry → IsFileName name
  workingDirectory : t.lookup t.workingDirectory = some .directory

instance : Decidable (IsFileName name) :=
  decidable_of_iff (Path.IsName name.toList ∧ '\x00' ∉ name.toList ∧
      (Text.utf8 name.toList).length ≤ nameLimit)
    ⟨fun h => ⟨h.1, h.2.1, h.2.2⟩, fun h => ⟨h.isName, h.nul, h.length⟩⟩

def isPlaced (t : FileTree) (l : Location) : Bool :=
  match l.getLast? with
  | none => true
  | some name => t.lookup l.dropLast = some .directory && decide (IsFileName name)

theorem isPlaced_append : t.isPlaced (l ++ [name]) = true ↔
    t.lookup l = some .directory ∧ IsFileName name := by
  simp [isPlaced]

theorem wellFormed_iff : t.WellFormed ↔
    t.entries.toList.all (fun e => t.isPlaced e.1) = true ∧
      t.lookup t.workingDirectory = some .directory := by
  have hentry {l : Location} {name : String} {entry : FileEntry} :
      t.lookup (l ++ [name]) = some entry ↔ (l ++ [name], entry) ∈ t.entries.toList := by
    rw [lookup_append_of_ne_nil (by simp), Std.ExtTreeMap.mem_toList_iff_getElem?_eq_some]
  rw [List.all_eq_true]
  constructor
  · intro h
    refine ⟨fun ⟨l, entry⟩ hm => ?_, h.workingDirectory⟩
    rcases List.eq_nil_or_concat l with rfl | ⟨front, name, rfl⟩
    · rfl
    · rw [List.concat_eq_append] at hm ⊢
      have hl := hentry.mpr hm
      exact isPlaced_append.mpr ⟨h.parent hl, h.isFileName hl⟩
  · rintro ⟨h, hwd⟩
    exact ⟨fun hl => (isPlaced_append.mp (h _ (hentry.mp hl))).1,
      fun hl => (isPlaced_append.mp (h _ (hentry.mp hl))).2, hwd⟩

instance : Decidable t.WellFormed := decidable_of_iff _ wellFormed_iff.symm

theorem WellFormed.directory (h : t.WellFormed) {names : List String} (hne : names ≠ [])
    (hl : t.lookup (l ++ names) = some entry) : t.lookup l = some .directory := by
  induction names generalizing l with
  | nil => exact absurd rfl hne
  | cons name names ih =>
    rw [List.append_cons] at hl
    cases names with
    | nil => exact h.parent (List.append_nil _ ▸ hl)
    | cons next names => exact h.parent (ih (by simp) hl)

theorem WellFormed.isFileName_of_mem (h : t.WellFormed) {names : List String}
    (hl : t.lookup (l ++ names) = some entry) (hm : name ∈ names) : IsFileName name := by
  obtain ⟨before, rest, rfl⟩ := List.append_of_mem hm
  rw [← List.append_assoc, List.append_cons] at hl
  cases rest with
  | nil => exact h.isFileName (List.append_nil _ ▸ hl)
  | cons next rest => exact h.isFileName (h.directory (by simp) hl)

theorem WellFormed.descend (h : t.WellFormed) {names : List String}
    (hl : t.lookup (l ++ names) = some entry) :
    t.descend l (names.map String.toList) = .ok (l ++ names) := by
  induction names generalizing l with
  | nil => simp [FileTree.descend]
  | cons name names ih =>
    have hdir := h.directory (by simp) hl
    have hname := h.isFileName_of_mem hl List.mem_cons_self
    have hfits : ¬ nameLimit < (Text.utf8 name.toList).length := Nat.not_lt.mpr hname.length
    rw [List.append_cons] at hl
    have hnext : t.lookup (l ++ [name]) ≠ none := by
      cases names with
      | nil => simp_all
      | cons next names => simp [h.directory (by simp) hl]
    simp only [List.map_cons, FileTree.descend, hdir, hname.isName.not_idle, hname.isName.ne_dots,
      hfits, String.ofList_toList, if_false, Bool.false_eq_true]
    split
    · contradiction
    · rw [ih hl, ← List.append_cons]

/-- Below a path that leads somewhere, the path down the names of a file leads to the file. -/
theorem WellFormed.follow_join (h : t.WellFormed) {names : List String} (hp : t.follow p = .ok l)
    (hne : names ≠ []) (hl : t.lookup (l ++ names) = some entry)
    (hlong : isTooLong (p.join (.ofNames (names.map String.toList))) = false) :
    t.follow (p.join (.ofNames (names.map String.toList))) = .ok (l ++ names) := by
  have hn : ∀ name ∈ names.map String.toList, Path.IsName name := by
    intro _ hm
    obtain ⟨name, hname, rfl⟩ := List.mem_map.mp hm
    exact (h.isFileName_of_mem hl hname).isName
  have hne' : names.map String.toList ≠ [] := by simpa using hne
  have habsolute := Path.isAbsolute_ofNames hn
  obtain ⟨hnul, hchars, -, hdescend⟩ := follow_eq_ok_iff.mp hp
  refine follow_eq_ok_iff.mpr ⟨?_, ?_, hlong, ?_⟩
  · rw [Path.chars_join p habsolute, Path.chars_ofNames]
    intro hm
    rcases List.mem_append.mp hm with hm | hm
    · rcases List.mem_append.mp hm with hm | hm
      · exact hnul hm
      · exact absurd (Path.eq_slash_of_mem_glue hm) (by decide)
    · rcases Text.mem_joined hm with hm | ⟨part, hpart, hm⟩
      · exact absurd hm (by decide)
      · obtain ⟨name, hname, rfl⟩ := List.mem_map.mp hpart
        exact (h.isFileName_of_mem hl hname).nul hm
  · rw [Path.chars_join p habsolute]
    simp [hchars]
  · rw [start, Path.isAbsolute_join p habsolute, ← start, descend_join_iff p hne' hn]
    exact ⟨l, hdescend, h.descend hl⟩

-- ---------------------------------------------------------------------------
-- Trees as they are built
-- ---------------------------------------------------------------------------

theorem mem_ways {location : Location} :
    (l, entry) ∈ ((List.range location.length).map fun n =>
      (location.take (n + 1), FileEntry.directory)) ↔
        l ≠ [] ∧ l <+: location ∧ entry = .directory := by
  simp only [List.mem_map, List.mem_range, Prod.mk.injEq]
  constructor
  · rintro ⟨n, hn, rfl, rfl⟩
    refine ⟨?_, List.take_prefix _ _, rfl⟩
    rw [← List.length_pos_iff, List.length_take]
    omega
  · rintro ⟨hne, hway, rfl⟩
    have hpos := List.length_pos_iff.mpr hne
    refine ⟨l.length - 1, Nat.lt_of_lt_of_le (Nat.sub_one_lt_of_lt hpos) hway.length_le, ?_, rfl⟩
    rw [Nat.sub_add_cancel hpos, ← List.prefix_iff_eq_take.mp hway]

theorem ways_distinct (location : Location) :
    ((List.range location.length).map fun n =>
      (location.take (n + 1), FileEntry.directory)).Pairwise
        fun a b => ¬ compare a.1 b.1 = .eq := by
  rw [List.pairwise_map]
  refine List.pairwise_lt_range.imp_of_mem fun ha hb hlt heq => ?_
  have hlen := congrArg List.length (Std.LawfulEqOrd.eq_of_compare heq)
  simp only [List.length_take, List.mem_range] at hlen ha hb
  omega

theorem lookup_rootedAt {location : Location} : (rootedAt location).lookup l = some entry ↔
    l <+: location ∧ entry = .directory := by
  by_cases hl : l = []
  · simp [hl, lookup, eq_comm]
  · rw [lookup, if_neg hl, rootedAt]
    by_cases hway : l <+: location
    · rw [Std.ExtTreeMap.getElem?_ofList_of_mem Std.ReflCmp.compare_self (ways_distinct location)
        (mem_ways.mpr ⟨hl, hway, rfl⟩)]
      simp [hway, eq_comm]
    · rw [Std.ExtTreeMap.getElem?_ofList_of_contains_eq_false]
      · simp [hway]
      · rw [Bool.eq_false_iff]
        intro hcontains
        obtain ⟨⟨l', entry'⟩, hm, rfl⟩ := List.mem_map.mp (List.contains_iff_mem.mp hcontains)
        exact hway (mem_ways.mp hm).2.1

def put (t : FileTree) (l : Location) (entry : FileEntry) : FileTree :=
  { t with entries := t.entries.insert l entry }

theorem lookup_put (hl : l ≠ []) :
    (t.put l entry).lookup l' = if l' = l then some entry else t.lookup l' := by
  by_cases h : l' = l
  · simp [put, lookup, h, hl]
  · have hne : l ≠ l' := Ne.symm h
    simp [put, lookup, h, Std.ExtTreeMap.getElem?_insert, hne]

theorem WellFormed.put (h : t.WellFormed) (hdir : t.lookup here = some .directory)
    (hname : IsFileName name) (hnew : t.lookup (here ++ [name]) ≠ some .directory) :
    (t.put (here ++ [name]) entry).WellFormed := by
  have hput {l' : Location} : (t.put (here ++ [name]) entry).lookup l' =
      if l' = here ++ [name] then some entry else t.lookup l' := lookup_put (by simp)
  have hkept {l' : Location} (hl : t.lookup l' = some .directory) :
      (t.put (here ++ [name]) entry).lookup l' = some .directory := by
    rw [hput, if_neg]
    · exact hl
    · rintro rfl
      exact hnew hl
  constructor
  case parent =>
    intro l' name' entry' hl
    apply hkept
    rw [hput] at hl
    split at hl
    · rename_i heq
      obtain ⟨rfl, -⟩ := List.append_inj' heq rfl
      exact hdir
    · exact h.parent hl
  case isFileName =>
    intro l' name' entry' hl
    rw [hput] at hl
    split at hl
    · rename_i heq
      obtain ⟨-, heq⟩ := List.append_inj' heq rfl
      cases heq
      exact hname
    · exact h.isFileName hl
  case workingDirectory => exact hkept h.workingDirectory

def ArePlain (names : List String) : Prop :=
  ∀ name ∈ names, Path.IsName name.toList ∧ '\x00' ∉ name.toList

theorem WellFormed.makeDirectories (h : t.WellFormed) (hdir : t.lookup here = some .directory)
    (hn : ArePlain names) (hm : t.makeDirectories here names = .ok (there, t')) :
    t'.WellFormed ∧ t'.lookup there = some .directory := by
  induction names generalizing t here with
  | nil =>
    cases hm
    exact ⟨h, hdir⟩
  | cons name names ih =>
    have hrest : ArePlain names := fun n hn' => hn n (List.mem_cons_of_mem _ hn')
    have hname := hn name List.mem_cons_self
    rw [FileTree.makeDirectories] at hm
    split at hm
    · cases hm
    · rename_i hfits
      dsimp only at hm
      split at hm
      · cases hm
      · rename_i hthere
        exact ih h hthere hrest hm
      · rename_i hthere
        have hfile : IsFileName name := ⟨hname.1, hname.2, Nat.not_lt.mp hfits⟩
        have hput : (t.put (here ++ [name]) .directory).WellFormed :=
          h.put hdir hfile (by simp [hthere])
        refine ih hput ?_ hrest hm
        rw [lookup_put (by simp), if_pos rfl]

theorem map_foldr_consPlain {pieces : List (List Char)} {names : List String}
    (h : (pieces.filterMap Path.component?).foldr consPlain? (some []) = some names) :
    names.map String.toList = pieces.filter (!Path.isIdle ·) ∧ ['.', '.'] ∉ pieces := by
  induction pieces generalizing names with
  | nil => simp_all
  | cons piece pieces ih =>
    by_cases hidle : Path.isIdle piece = true
    · have hne : piece ≠ ['.', '.'] := by
        rintro rfl
        exact absurd hidle (by decide)
      rw [List.filterMap_cons_none (by simp [Path.component?, hidle])] at h
      simpa [hidle, hne.symm] using ih h
    · by_cases hdots : piece = ['.', '.']
      · have hparent : Path.component? piece = some .parent := hdots ▸ rfl
        rw [List.filterMap_cons_some hparent] at h
        cases h
      · have hnamed : Path.component? piece = some (.named piece) := by
          simp [Path.component?, hidle, hdots]
        rw [List.filterMap_cons_some hnamed] at h
        obtain ⟨rest, hrest, rfl⟩ := Option.map_eq_some_iff.mp h
        simpa [hidle, Ne.symm hdots] using ih hrest

/-- The plain names of a path are its pieces, the idle ones left out. -/
theorem map_plainNames {names : List String} (h : plainNames? p = some names) :
    names.map String.toList = p.pieces.filter (!Path.isIdle ·) ∧ ['.', '.'] ∉ p.pieces := by
  rw [plainNames?, Path.components_eq, List.foldr_append] at h
  refine map_foldr_consPlain ?_
  rcases Path.origin_cases p.pieces with ho | ho | ho
  · rwa [ho] at h
  · rw [ho] at h
    cases h
  · rwa [ho] at h

theorem arePlain_plainNames {names : List String} (hnul : '\x00' ∉ p.chars)
    (h : plainNames? p = some names) : ArePlain names := by
  obtain ⟨hnames, hdots⟩ := map_plainNames h
  intro name hm
  have hpiece : name.toList ∈ p.pieces ∧ Path.isIdle name.toList = false := by
    have := List.mem_map_of_mem (f := String.toList) hm
    simpa [hnames] using this
  obtain ⟨hslash, hchars⟩ := Text.of_mem_fields hpiece.1
  have hidle : name.toList ≠ [] ∧ name.toList ≠ ['.'] := by simpa [Path.isIdle] using hpiece.2
  refine ⟨⟨hidle.1, hslash, hidle.2, ?_⟩, fun hm => hnul (hchars hm)⟩
  intro heq
  exact hdots (heq ▸ hpiece.1)

theorem exists_last_plainNames {names : List String} {last : List Char}
    (h : plainNames? p = some names) (hlast : p.pieces.getLast? = some last)
    (hidle : ¬ Path.isIdle last = true) :
    ∃ dirs name, names = dirs ++ [name] ∧ name.toList = last := by
  obtain ⟨front, hpieces⟩ := List.getLast?_eq_some_iff.mp hlast
  have hnames := (map_plainNames h).1
  rw [hpieces, List.filter_append, List.filter_cons_of_pos (by simpa using hidle)] at hnames
  obtain ⟨dirs, rest, rfl, -, hrest⟩ := List.map_eq_append_iff.mp hnames
  obtain ⟨name, rfl, hname⟩ := List.map_eq_singleton_iff.mp hrest
  exact ⟨dirs, name, rfl, hname⟩

/-- What writing a file does: it makes the directories and puts the file into the last one. -/
theorem write_eq_ok (h : t.write p bytes = .ok t') : ∃ dirs name here mid,
    ArePlain dirs ∧ IsFileName name ∧
      t.makeDirectories t.workingDirectory dirs = .ok (here, mid) ∧
      mid.lookup (here ++ [name]) ≠ some .directory ∧
      t' = mid.put (here ++ [name]) (.file bytes) := by
  unfold write at h
  split at h
  · cases h
  · rename_i hnul
    split at h
    · cases h
    · split at h
      · rename_i names last hnames hlast
        split at h
        · cases h
        · rename_i hidle
          obtain ⟨dirs, name, hsplit, rfl⟩ := exists_last_plainNames hnames hlast hidle
          have hplain := arePlain_plainNames hnul hnames
          rw [hsplit] at h hplain
          cases hd : t.makeDirectories t.workingDirectory dirs with
          | error e => simp [hd, bind, Except.bind] at h
          | ok made =>
            obtain ⟨here, mid⟩ := made
            simp only [List.dropLast_concat, hd, bind, Except.bind, List.getLast?_concat,
              Option.toList_some] at h
            split at h
            · cases h
            · rename_i hfits
              have hname := hplain name (by simp)
              refine ⟨dirs, name, here, mid, fun n hn => hplain n (by simp [hn]),
                ⟨hname.1, hname.2, Nat.not_lt.mp hfits⟩, hd, ?_⟩
              split at h
              · cases h
              · rename_i hnew
                cases h
                exact ⟨hnew, rfl⟩
      · cases h

theorem WellFormed.write (h : t.WellFormed) (hw : t.write p bytes = .ok t') : t'.WellFormed := by
  obtain ⟨dirs, name, here, mid, hdirs, hname, hmid, hnew, rfl⟩ := write_eq_ok hw
  obtain ⟨hmid, hhere⟩ := h.makeDirectories h.workingDirectory hdirs hmid
  exact hmid.put hhere hname hnew

theorem WellFormed.makeDirectory (h : t.WellFormed) (hm : t.makeDirectory p = .ok t') :
    t'.WellFormed := by
  unfold FileTree.makeDirectory at hm
  split at hm
  · cases hm
  · rename_i hnul
    split at hm
    · cases hm
    · split at hm
      · cases hm
      · rename_i names hnames
        split at hm
        · cases hf : t.follow p with
          | error e => simp [hf, Except.map] at hm
          | ok l =>
            rw [hf] at hm
            cases hm
            exact h
        · cases hd : t.makeDirectories t.workingDirectory names with
          | error e => simp [hd, Except.map] at hm
          | ok made =>
            rw [hd] at hm
            cases hm
            exact (h.makeDirectories h.workingDirectory (arePlain_plainNames hnul hnames) hd).1

theorem remove_eq_ok (h : t.remove p = .ok t') : ∃ l bytes,
    t.lookup l = some (.file bytes) ∧ t' = { t with entries := t.entries.erase l } := by
  unfold remove FileTree.read at h
  cases hf : t.follow p with
  | error e => simp [hf, bind, Except.bind] at h
  | ok l =>
    simp only [hf, bind, Except.bind] at h
    cases hl : t.lookup l with
    | none => simp [hl] at h
    | some entry =>
      cases entry with
      | directory => simp [hl] at h
      | file bytes =>
        simp only [hl, Except.ok.injEq] at h
        exact ⟨l, bytes, hl, h.symm⟩

theorem WellFormed.remove (h : t.WellFormed) (hr : t.remove p = .ok t') : t'.WellFormed := by
  obtain ⟨l, bytes, hfile, rfl⟩ := remove_eq_ok hr
  have hleft {l' : Location} {entry : FileEntry}
      (hl : lookup { t with entries := t.entries.erase l } l' = some entry) :
      t.lookup l' = some entry := by
    unfold lookup at hl ⊢
    split at hl
    · simp_all
    · simp_all [Std.ExtTreeMap.getElem?_erase]
  have hkept {l' : Location} (hl : t.lookup l' = some .directory) :
      lookup { t with entries := t.entries.erase l } l' = some .directory := by
    have hne : l ≠ l' := by
      rintro rfl
      simp [hl] at hfile
    unfold lookup at hl ⊢
    simpa [Std.ExtTreeMap.getElem?_erase, hne] using hl
  constructor
  case parent => exact fun hl => hkept (h.parent (hleft hl))
  case isFileName => exact fun hl => h.isFileName (hleft hl)
  case workingDirectory => exact hkept h.workingDirectory

/-- Trees as operations make them, from the bare way to a working directory on. -/
inductive Built : FileTree → Prop
  | rootedAt {location : Location} (h : ∀ name ∈ location, IsFileName name) :
    Built (rootedAt location)
  | makeDirectory {t t' : FileTree} {p : Path} (h : Built t) (hm : t.makeDirectory p = .ok t') :
    Built t'
  | write {t t' : FileTree} {p : Path} {bytes : Bytes} (h : Built t)
    (hw : t.write p bytes = .ok t') : Built t'
  | remove {t t' : FileTree} {p : Path} (h : Built t) (hr : t.remove p = .ok t') : Built t'

theorem wellFormed_rootedAt {location : Location} (h : ∀ name ∈ location, IsFileName name) :
    (rootedAt location).WellFormed := by
  constructor
  case parent =>
    intro l name entry hl
    rw [lookup_rootedAt] at hl ⊢
    exact ⟨(List.prefix_append _ _).trans hl.1, rfl⟩
  case isFileName =>
    intro l name entry hl
    exact h name ((lookup_rootedAt.mp hl).1.subset (by simp))
  case workingDirectory => exact lookup_rootedAt.mpr ⟨List.prefix_rfl, rfl⟩

theorem Built.wellFormed (h : t.Built) : t.WellFormed := by
  induction h with
  | rootedAt h => exact wellFormed_rootedAt h
  | makeDirectory _ hm ih => exact ih.makeDirectory hm
  | write _ hw ih => exact ih.write hw
  | remove _ hr ih => exact ih.remove hr

end RefScan.FileTree
