import RefScan.Proofs.ClassPath
import RefScan.Proofs.ClassPath.Names
import RefScan.Proofs.Scan.Failure
import RefScan.Proofs.Scan.Within
import RefScan.Proofs.Universe

/-!
# A larger source loses no reference

A source that loads and resolves whatever another one does, and in the same way, has all its
references. New types may be nearer to the root than old ones and bring new ways to them, but no way
is lost, so the scan of the old source is within that of the new one. Class paths grow by
directories at their end, universes by names that they did not contain.
-/

namespace RefScan

/-- Whatever `s` loads or resolves, `s'` loads and resolves alike. -/
structure Source.Extends (s s' : Source) : Prop where
  load : ∀ {u bytes}, s.load u = .ok bytes → s'.load u = .ok bytes
  resolve : ∀ {name t}, s.resolve name = .ok t → s'.resolve name = .ok t

theorem ClassPath.extends_extended (cp : ClassPath) (more : List Path) (tree : FileTree) :
    (cp.source tree).Extends ((cp.extended more).source tree) :=
  ⟨load_extended more, resolve_extended more⟩

theorem Universe.extends_after {u : Universe} {cs : List Change}
    (h : ∀ c ∈ cs, u.contains c.name = false) : u.source.Extends (u.after cs).source := by
  have halike (name : String) (hin : u.contains name = true) : Alike u (u.after cs) name := by
    refine alike_after fun c hc hname => ?_
    rw [← hname, h c hc] at hin
    cases hin
  constructor
  case load =>
    intro t bytes hload
    exact (halike t.name (contains_of_bytesOf hload)).bytesOf.trans hload
  case resolve =>
    intro name t hresolve
    exact (halike name (handleOf_eq_ok hresolve).2).handleOf.trans hresolve

namespace Source

variable {s s' : Source}

theorem Extends.mentions (h : s.Extends s') (hm : s.Mentions encoding u t) :
    s'.Mentions encoding u t := by
  obtain ⟨bytes, hload, name, hn, hresolve⟩ := hm
  exact ⟨bytes, h.load hload, name, hn, h.resolve hresolve⟩

theorem Extends.within (h : s.Extends s') (root : TypeName) (options : ScanOptions)
    (p : Option (TypeName → Bool)) (recorded : Bool) :
    Walk.Within ⟨s, root, options, p.map .ofPredicate, recorded⟩
      ⟨s', root, options, p.map .ofPredicate, recorded⟩ p p where
  root := rfl
  options := rfl
  exclusion := rfl
  exclusion' := rfl
  refersTo := fun ⟨hm, hne, hrejected⟩ => ⟨h.mentions hm, hne, hrejected⟩

theorem Extends.scanWith_ok (h : s.Extends s') {options : ScanOptions}
    {exclusion : Option Exclusion} {view : Walk → α} (he : s.Ends (some root) options exclusion)
    (he' : s'.Ends (some root) options exclusion)
    (hr : (s.scanWith (some root) options exclusion recorded nothing view).result = .ok a) :
    a = view (.finished ⟨s, root, options, exclusion, recorded⟩) ∧
      (s'.scanWith (some root) options exclusion recorded nothing view).result =
        .ok (view (.finished ⟨s', root, options, exclusion, recorded⟩)) := by
  obtain ⟨hf, ha⟩ := Walk.outcome_eq_ok hr
  obtain ⟨bytes, hload⟩ :=
    Walk.loads_root_of_failure_none ((Walk.ends_recorded_iff recorded).mpr he) hf
  exact ⟨ha, scanWith_of_load he' (h.load hload) _ _⟩

structure Keeps (s s' : Source) (root : Option TypeName) (options : ScanOptions)
    (exclusion : Option Exclusion) : Prop where
  ends : s.Ends root options exclusion ∧ s'.Ends root options exclusion
  report : ∀ r, (s.report root options exclusion).result = .ok r →
    ∃ r', (s'.report root options exclusion).result = .ok r' ∧ ∀ t ∈ r.found, t ∈ r'.found
  scan : ∀ found, (s.scan root options exclusion).result = .ok found →
    ∃ found', (s'.scan root options exclusion).result = .ok found' ∧ ∀ t ∈ found, t ∈ found'
  graph : ∀ g, (s.graph root options exclusion).result = .ok g →
    ∃ g', (s'.graph root options exclusion).result = .ok g' ∧ g.edges ⊆ g'.edges

theorem Extends.keeps (h : s.Extends s') {root : Option TypeName} {options : ScanOptions}
    {p : Option (TypeName → Bool)} (he' : s'.Ends root options (p.map .ofPredicate)) :
    s.Keeps s' root options (p.map .ofPredicate) := by
  cases root with
  | none =>
    exact ⟨⟨by simp [Ends], he'⟩, fun r hr => ⟨r, hr, fun _ ht => ht⟩,
      fun found hr => ⟨found, hr, fun _ ht => ht⟩, fun g hr => ⟨g, hr, List.Subset.refl _⟩⟩
  | some root =>
    have hwithin := h.within root options p
    have hends (recorded : Bool) :
        Walk.Ends ⟨s', root, options, p.map .ofPredicate, recorded⟩ :=
      (Walk.ends_recorded_iff recorded).mpr he'
    have he : s.Ends (some root) options (p.map .ofPredicate) :=
      (Walk.ends_recorded_iff false).mp ((hwithin false).ends (hends false))
    constructor
    case ends => exact ⟨he, he'⟩
    case report =>
      intro r hr
      obtain ⟨rfl, hr'⟩ := h.scanWith_ok he he' hr
      exact ⟨_, hr', fun _ ht => (hwithin false).found (hends false) ht⟩
    case scan =>
      intro found hr
      obtain ⟨rfl, hr'⟩ := h.scanWith_ok he he' hr
      exact ⟨_, hr', fun _ ht => (hwithin false).found (hends false) ht⟩
    case graph =>
      intro g hr
      obtain ⟨rfl, hr'⟩ := h.scanWith_ok he he' hr
      refine ⟨_, hr', (hwithin true).edges (hends true) ?_ (Walk.records_getD (hends true) rfl)⟩
      exact Walk.records_getD ((hwithin true).ends (hends true)) rfl

/-- Directories at the end of a class path, and names new to a universe, take nothing from a scan
that succeeds. -/
theorem scan_grows (root : Option TypeName) (options : ScanOptions)
    (p : Option (TypeName → Bool)) :
    (∀ (cp : ClassPath) (more : List Path) (tree : FileTree),
      (cp.source tree).Keeps ((cp.extended more).source tree) root options (p.map .ofPredicate)) ∧
    ∀ (u : Universe) (cs : List Universe.Change), (∀ c ∈ cs, u.contains c.name = false) →
      u.source.Keeps (u.after cs).source root options (p.map .ofPredicate) := by
  constructor
  · intro cp more tree
    have hfinite := (cp.extended more).finite_resolvable tree
    exact (cp.extends_extended more tree).keeps (ends_of_finite hfinite)
  · intro u cs h
    exact (Universe.extends_after h).keeps (ends_of_finite (u.after cs).finite_resolvable)

/-- The new type is met before an old one and refers to what that one leads to. In the class path
the second directory also has another unit of the root, which stays hidden. -/
theorem scan_grows_shortcut :
    let options : ScanOptions := { recursive := true, maxDepth := some 1 }
    let scan (s : Source) := s.report (some ⟨"a.A"⟩) options (some (.ofPredicate looped.rejects))
    let u := Universe.after {} [.insertBytes "a.A" (utf8Bytes "a/B;a/D"),
      .insertBytes "a.B" (utf8Bytes "a/C"), .insertStub "a.C"]
    let cs : List Universe.Change :=
      [.insertBytes "a.D" (utf8Bytes "a/C;a/E"), .insertStub "a.E"]
    let cp : ClassPath := ⟨[⟨"old"⟩]⟩
    let entries : List (Location × FileEntry) := [(["old"], .directory), (["new"], .directory),
      (["old", "a"], .directory), (["old", "a", "A.class"], .file (utf8Bytes "a/B")),
      (["new", "a"], .directory), (["new", "a", "A.class"], .file []),
      (["new", "a", "B.class"], .file [])]
    let tree : FileTree := { entries := .ofList entries }
    (∀ c ∈ cs, u.contains c.name = false) ∧
    (∃ r r', (scan u.source).result = .ok r ∧ (scan (u.after cs).source).result = .ok r' ∧
      r.found.toList = [⟨"a.B"⟩, ⟨"a.C"⟩] ∧ ∀ t ∈ r.found, t ∈ r'.found) ∧
    ∃ r r', (scan (cp.source tree)).result = .ok r ∧
      (scan ((cp.extended [⟨"new"⟩]).source tree)).result = .ok r' ∧
      ∀ t ∈ r.found, t ∈ r'.found := by
  intro options scan u cs cp entries tree
  obtain ⟨hpath, huniverse⟩ := scan_grows (some ⟨"a.A"⟩) options (some looped.rejects)
  have hnew : ∀ c ∈ cs, u.contains c.name = false := by decide +kernel
  have hload : u.source.load ⟨"a.A"⟩ = .ok (utf8Bytes "a/B;a/D") := by decide +kernel
  have hr : (scan u.source).result = .ok _ :=
    scanWith_of_load (huniverse u cs hnew).ends.1 hload _ _
  have hload' : (cp.source tree).load ⟨"a.A"⟩ = .ok (utf8Bytes "a/B") := by decide +kernel
  have hr' : (scan (cp.source tree)).result = .ok _ :=
    scanWith_of_load (hpath cp [⟨"new"⟩] tree).ends.1 hload' _ _
  obtain ⟨after, hafter, hfound⟩ := (huniverse u cs hnew).report _ hr
  obtain ⟨after', hafter', hfound'⟩ := (hpath cp [⟨"new"⟩] tree).report _ hr'
  refine ⟨hnew, ⟨_, after, hr, hafter, ?_, hfound⟩, _, after', hr', hafter', hfound'⟩
  show (Walk.finished _).found.toList = _
  rw [Walk.finished_eq_run (n := 3) (by decide +kernel)]
  decide +kernel

end Source

end RefScan
