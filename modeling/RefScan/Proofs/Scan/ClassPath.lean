import RefScan.Command
import RefScan.Proofs.ClassPath
import RefScan.Proofs.ClassPath.Names
import RefScan.Proofs.Scan.Accounts

/-!
# Scans of class paths

Every name that a class path resolves has bytes to load. A source of that kind (`Backed`) leaves no
type behind in a scan: all that is met is read, and only a root that is not there makes a scan fail.
The commands resolve their root first, so they have no failure of a scan to report.
-/

namespace RefScan

def Source.Backed (s : Source) : Prop := ∀ {name t}, s.resolve name = .ok t → s.Loads t

namespace Walk

variable {q : ScanRequest}

theorem loads_of_backed (he : Ends q) (hb : q.source.Backed) (hf : (finished q).failure = none)
    (hu : u ∈ (finished q).loads) : q.source.Loads u := by
  have hi := finished_invariant he
  rcases hi.seen.visited.mp (hi.visited (.inl hu)) with rfl | ⟨-, hfound⟩
  · exact loads_root_of_failure_none he hf
  · obtain ⟨-, _, -, ⟨_, -, _, -, hresolve⟩, -⟩ := hi.found.mp hfound
    exact hb hresolve

theorem abandoned_of_backed (he : Ends q) (hb : q.source.Backed)
    (hf : (finished q).failure = none) : (finished q).stats.abandoned = 0 := by
  rw [(ledger_finished he).abandoned hf, List.countP_eq_zero]
  intro u hu
  simp [Source.isOk_iff_loads.mpr (loads_of_backed he hb hf hu)]

end Walk

namespace ClassPath

theorem backed_source (cp : ClassPath) (tree : FileTree) : (cp.source tree).Backed := by
  intro name t h
  obtain ⟨rfl, hload⟩ := resolve_eq_ok_iff.mp h
  exact hload

theorem ends_source (cp : ClassPath) (tree : FileTree) :
    (cp.source tree).Ends root options exclusion :=
  Source.ends_of_finite (cp.finite_resolvable tree)

end ClassPath

namespace Command

variable {s : Settings} {tree : FileTree} {f : TypeName → Except CommandError Outcome}

theorem load_of_rootOf (h : rootOf s tree type = .ok root) :
    ∃ bytes, (s.classPath.source tree).load root = .ok bytes := by
  unfold rootOf at h
  cases hr : s.classPath.resolve tree type with
  | error e => simp [hr, Except.mapError] at h
  | ok t =>
    simp only [hr, Except.mapError, Except.ok.injEq] at h
    exact h ▸ s.classPath.backed_source tree hr

def Completes (s : Settings) (tree : FileTree) (f : TypeName → Except CommandError Outcome) :
    Prop :=
  ∀ {root bytes}, (s.classPath.source tree).load root = .ok bytes → ∃ outcome, f root = .ok outcome

theorem Completes.of_rootOf (hf : Completes s tree f) (h : rootOf s tree type = .ok root) :
    ∃ outcome, (rootOf s tree type >>= f) = .ok outcome := by
  obtain ⟨bytes, hload⟩ := load_of_rootOf h
  rw [h]
  exact hf hload

theorem Completes.ne_scan (hf : Completes s tree f) (type : String) (e : ScanError) :
    (rootOf s tree type >>= f) ≠ .error (.scan e) := by
  cases hr : rootOf s tree type with
  | ok root =>
    obtain ⟨outcome, h⟩ := hf.of_rootOf hr
    rw [← hr, h]
    simp
  | error cause =>
    unfold rootOf at hr
    cases hresolve : s.classPath.resolve tree type with
    | ok t => simp [hresolve, Except.mapError] at hr
    | error missing =>
      simp only [hresolve, Except.mapError, Except.error.injEq] at hr
      simp [← hr, bind, Except.bind]

theorem runScan_eq (s : Settings) (tree : FileTree) :
    ∃ f, Completes s tree f ∧ ∀ type, runScan s tree type = rootOf s tree type >>= f := by
  refine ⟨_, fun {root bytes} hload => ?_, fun _ => rfl⟩
  have hreport : ((s.classPath.source tree).report (some root) s.options
      s.exclusion.exclusion?).result = .ok _ :=
    Source.scanWith_of_load (s.classPath.ends_source tree) hload _ _
  simp [hreport, bind, Except.bind, Except.mapError, pure, Except.pure]

theorem runGraph_eq (s : Settings) (tree : FileTree) :
    ∃ f, Completes s tree f ∧ ∀ type, runGraph s tree type = rootOf s tree type >>= f := by
  refine ⟨_, fun {root bytes} hload => ?_, fun _ => rfl⟩
  have hgraph : ((s.classPath.source tree).graph (some root) { s.options with recursive := true }
      s.exclusion.exclusion?).result = .ok _ :=
    Source.scanWith_of_load (s.classPath.ends_source tree) hload _ _
  simp [hgraph, bind, Except.bind, Except.mapError, pure, Except.pure]

theorem runCandidates_ne_scan (tree : FileTree) (file : String) (encoding : Encoding) (json : Bool)
    (e : ScanError) : runCandidates tree file encoding json ≠ .error (.scan e) := by
  unfold runCandidates
  cases tree.read ⟨file⟩ <;> simp [bind, Except.bind, Except.mapError, pure, Except.pure]

end Command

namespace CommandLine

theorem exists_of_encoding_bind {x : Except EncodingError α} {f : α → Except CommandError β}
    (h : (x.mapError CommandError.encoding >>= f) = .error (.scan e)) :
    ∃ a, f a = .error (.scan e) := by
  cases x with
  | error cause => simp [bind, Except.bind, Except.mapError] at h
  | ok a => exact ⟨a, h⟩

theorem attempt_ne_scan (tree : FileTree) (c : CommandLine) (e : ScanError) :
    c.attempt tree ≠ .error (.scan e) := by
  intro h
  unfold attempt at h
  cases hc : c.command with
  | scan type a =>
    simp only [hc] at h
    obtain ⟨s, hs⟩ := exists_of_encoding_bind h
    obtain ⟨f, hf, hrun⟩ := Command.runScan_eq s tree
    exact hf.ne_scan type e (hrun type ▸ hs)
  | graph type a =>
    simp only [hc] at h
    obtain ⟨s, hs⟩ := exists_of_encoding_bind h
    obtain ⟨f, hf, hrun⟩ := Command.runGraph_eq s tree
    exact hf.ne_scan type e (hrun type ▸ hs)
  | all a =>
    simp only [hc] at h
    obtain ⟨s, hs⟩ := exists_of_encoding_bind h
    cases hs
  | candidates file label json =>
    simp only [hc] at h
    cases label with
    | none => exact Command.runCandidates_ne_scan tree file _ json e h
    | some label =>
      obtain ⟨encoding, hs⟩ := exists_of_encoding_bind h
      exact Command.runCandidates_ne_scan tree file encoding json e hs

end CommandLine

namespace ClassPath

/-- The unit of a name made of identifiers comes from the first root with a file for it, and such a
name resolves if it loads. All other names are not found, whatever lies in the directories. So a
scan ends and abandons no type, and no command fails once it has its root. -/
theorem loads_what_it_resolves (tree : FileTree) :
    (∀ (cp : ClassPath) (name : String),
      (∀ bytes, cp.load tree ⟨name⟩ = .ok bytes ↔
        isQualifiedName name = true ∧ FirstUnit tree name cp.roots bytes) ∧
      (∀ t, cp.resolve tree name = .ok t ↔
        t = ⟨name⟩ ∧ ∃ bytes, cp.load tree ⟨name⟩ = .ok bytes) ∧
      ((∀ bytes, cp.load tree ⟨name⟩ ≠ .ok bytes) →
        cp.load tree ⟨name⟩ = .error (.notFound name) ∧
        cp.resolve tree name = .error (.notFound name))) ∧
    (∀ (cp : ClassPath) (root : TypeName) (options : ScanOptions) (exclusion : Option Exclusion),
      (cp.source tree).Ends (some root) options exclusion ∧
      ∀ r, ((cp.source tree).report (some root) options exclusion).result = .ok r →
        r.stats.abandoned = 0 ∧
        (options.recursive = true → options.maxDepth = none →
          r.stats.expanded = 1 + r.found.size)) ∧
    (∀ (s : Settings) (type : String) (root : TypeName), Command.rootOf s tree type = .ok root →
      (∃ outcome, Command.runScan s tree type = .ok outcome) ∧
      ∃ outcome, Command.runGraph s tree type = .ok outcome) ∧
    ∀ (c : CommandLine) (e : ScanError), c.attempt tree ≠ .error (.scan e) := by
  refine ⟨?_, ?_, ?_, fun c e => c.attempt_ne_scan tree e⟩
  · intro cp name
    exact ⟨fun _ => load_eq_ok_iff, fun _ => resolve_eq_ok_iff, not_found_of_not_load⟩
  · intro cp root options exclusion
    refine ⟨cp.ends_source tree, fun r h => ?_⟩
    have he : Walk.Ends ⟨cp.source tree, root, options, exclusion, false⟩ :=
      (Walk.ends_recorded_iff false).mpr (cp.ends_source tree)
    obtain ⟨hf, rfl⟩ := Walk.outcome_eq_ok h
    have habandoned := Walk.abandoned_of_backed he (cp.backed_source tree) hf
    refine ⟨habandoned, fun hrec hmax => ?_⟩
    have hall := (Walk.accounts_finished he hf).unlimited hrec hmax
    simpa only [habandoned, Nat.add_zero] using hall
  · intro s type root h
    obtain ⟨f, hf, hscan⟩ := Command.runScan_eq s tree
    obtain ⟨g, hg, hgraph⟩ := Command.runGraph_eq s tree
    rw [hscan, hgraph]
    exact ⟨hf.of_rootOf h, hg.of_rootOf h⟩

/-- A directory stands in the way of the unit in the first root, and the second root decides. -/
theorem loads_what_it_resolves_shadowed :
    let entries : List (Location × FileEntry) := [(["one"], .directory), (["two"], .directory),
      (["one", "A.class"], .directory), (["two", "A.class"], .file (utf8Bytes "b/B")),
      (["two", "b"], .directory), (["two", "b", "B.class"], .file [])]
    let tree : FileTree := { entries := .ofList entries }
    let cp : ClassPath := ⟨[⟨"none"⟩, ⟨"one"⟩, ⟨"two"⟩]⟩
    let s : Settings := ⟨cp, { recursive := true }, ⟨[]⟩, false⟩
    cp.load tree ⟨"A"⟩ = .ok (utf8Bytes "b/B") ∧ FirstUnit tree "A" cp.roots (utf8Bytes "b/B") ∧
    (∀ bytes, cp.load tree ⟨"b/B"⟩ ≠ .ok bytes) ∧
      cp.resolve tree "b/B" = .error (.notFound "b/B") ∧
    (∃ r, ((cp.source tree).report (some ⟨"A"⟩) s.options).result = .ok r ∧
      r.stats.expanded = 1 + r.found.size) ∧
    Command.rootOf s tree "A" = .ok ⟨"A"⟩ ∧
    ∃ outcome, Command.runGraph s tree "A" = .ok outcome := by
  intro entries tree cp s
  obtain ⟨hlookup, hscan, hcommand, -⟩ := loads_what_it_resolves tree
  have hload : cp.load tree ⟨"A"⟩ = .ok (utf8Bytes "b/B") := by decide +kernel
  have hroot : Command.rootOf s tree "A" = .ok ⟨"A"⟩ := by
    have hresolve := ((hlookup cp "A").2.1 ⟨"A"⟩).mpr ⟨rfl, _, hload⟩
    simp only [Command.rootOf, s, hresolve, Except.mapError]
  have hr : ((cp.source tree).report (some ⟨"A"⟩) s.options).result = .ok _ :=
    Source.scanWith_of_load (hscan cp ⟨"A"⟩ s.options none).1 hload _ _
  have hslash : ∀ bytes, cp.load tree ⟨"b/B"⟩ ≠ .ok bytes := by
    intro bytes h
    exact absurd (((hlookup cp "b/B").1 bytes).mp h).1 (by decide +kernel)
  exact ⟨hload, (((hlookup cp "A").1 _).mp hload).2, hslash, ((hlookup cp "b/B").2.2 hslash).2,
    ⟨_, hr, ((hscan cp ⟨"A"⟩ s.options none).2 _ hr).2 rfl rfl⟩, hroot,
    (hcommand s "A" ⟨"A"⟩ hroot).2⟩

/-- A name with a slash in it is refused, although there is a file where its unit would be. -/
theorem load_slashed :
    let entries : List (Location × FileEntry) := [(["cp"], .directory), (["cp", "a"], .directory),
      (["cp", "a", "B.class"], .file (utf8Bytes "x"))]
    let tree : FileTree := { entries := .ofList entries }
    let cp : ClassPath := ⟨[⟨"cp"⟩]⟩
    FirstUnit tree "a/B" cp.roots (utf8Bytes "x") ∧
      cp.load tree ⟨"a/B"⟩ = .error (.notFound "a/B") ∧
      cp.resolve tree "a/B" = .error (.notFound "a/B") := by
  intro entries tree cp
  have hfile : tree.FileAt (unitBelow "a/B" ⟨"cp"⟩) (utf8Bytes "x") :=
    FileTree.read_eq_ok_iff.mp (by decide +kernel)
  exact ⟨⟨[], ⟨"cp"⟩, [], rfl, by simp, hfile⟩, by decide +kernel, by decide +kernel⟩

end ClassPath

end RefScan
