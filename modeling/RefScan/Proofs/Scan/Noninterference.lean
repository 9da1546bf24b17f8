import RefScan.Proofs.Scan.Accounts
import RefScan.Proofs.Universe

/-!
# A scan depends only on the answers it got

Whatever a scan did not load and did not resolve has no influence on it. Another source with the
same answers to the questions of the scan gives the same result by the same questions in the same
order, however the two differ elsewhere (`scan_eq_of_repeats`). This holds step by step for sources
that change, too, and so a universe can be changed freely under names that a scan does not ask for.
-/

namespace RefScan

/-- `s'` answers the questions of a scan as `s` does. -/
structure Source.Repeats (s s' : Source) (trace : Trace) : Prop where
  load : ∀ u ∈ trace.loads, s'.load u = s.load u
  resolve : ∀ name ∈ trace.resolutions, s'.resolve name = s.resolve name

namespace Walk

variable {q : ScanRequest} {s : Source} {env env' : Nat → Source}

theorem finished_asking (he : Ends q) (h : q.source.Repeats s (finished q).trace) :
    Ends (q.asking s) ∧ finished (q.asking s) = finished q := by
  obtain ⟨n, hn⟩ := he.exists_run
  have hrun : run (q.asking s) (n + 1) (start q) = finished q := by
    rw [hn]
    apply run_asking
    case hload =>
      intro u hu
      exact h.load u (List.mem_reverse.mpr (hn ▸ hu))
    case hresolve =>
      intro name hname
      rw [← hn] at hname
      exact h.resolve name (List.mem_reverse.mpr ((ledger_finished he).tally.resolutions.mpr hname))
  have hdrained := (congrArg pending hrun).trans (finished_drained he)
  exact ⟨⟨n + 1, hdrained⟩, (finished_eq_run (q := q.asking s) hdrained).trans hrun⟩

-- ---------------------------------------------------------------------------
-- Sources that change
-- ---------------------------------------------------------------------------

/-- In each of the first `n` steps `env'` answers the questions of that step as `env` does. -/
structure Follows (env env' : Nat → Source) (q : ScanRequest) (n : Nat) : Prop where
  load : ∀ {m u}, m < n → u ∈ (runIn env q (m + 1)).loads → u ∉ (runIn env q m).loads →
    (env' m).load u = (env m).load u
  resolve : ∀ {m name}, m < n → name ∈ (runIn env q (m + 1)).resolutions →
    name ∉ (runIn env q m).resolutions → (env' m).resolve name = (env m).resolve name

theorem Follows.of_succ (h : Follows env env' q (n + 1)) : Follows env env' q n :=
  ⟨fun hm => h.load (Nat.lt_succ_of_lt hm), fun hm => h.resolve (Nat.lt_succ_of_lt hm)⟩

theorem runIn_eq_of_follows (h : Follows env env' q n) : runIn env' q n = runIn env q n := by
  induction n with
  | zero => rfl
  | succ n ih =>
    have hi := invariant_runIn env q n
    have hsucc := runIn_succ env q n
    have hrecalls := recalls_known env q (n + 1)
    rw [runIn, ih h.of_succ, hsucc]
    cases hp : (runIn env q n).pending with
    | nil => rw [step_drained hp, step_drained hp]
    | cons p rest =>
      obtain ⟨unit, depth⟩ := p
      obtain ⟨next, hs⟩ := hi.stepped hp
      have hl := ledger_runIn env q n
      have hc := counted_step hi.memo hi.seen hl.tally hp
      refine step_asking (q := q.asking (known env q (n + 1))) hi.memo hp ?_ ?_
      · have hasked : unit ∈ (runIn env q (n + 1)).loads := by
          rw [hsucc, hs.loads]
          exact List.mem_cons_self
        have hnew := hi.not_mem_loads hp
        exact (h.load n.lt_succ_self hasked hnew).trans
          (hrecalls.load n.lt_succ_self hasked hnew).symm
      · intro name hn hnew
        have hasked : name ∈ (runIn env q (n + 1)).resolutions := by
          rw [hsucc, hc.tally.resolutions, hc.resolved]
          exact .inl hn
        have hnew : name ∉ (runIn env q n).resolutions := mt hl.tally.resolutions.mp hnew
        exact (h.resolve n.lt_succ_self hasked hnew).trans
          (hrecalls.resolve n.lt_succ_self hasked hnew).symm

end Walk

theorem Universe.repeats_after {u : Universe} {cs : List Change}
    (h : ∀ c ∈ cs, ⟨c.name⟩ ∉ trace.loads ∧ c.name ∉ trace.resolutions) :
    u.source.Repeats (u.after cs).source trace where
  load t ht := by
    refine (alike_after fun c hc hname => (h c hc).1 ?_).bytesOf
    rwa [hname]
  resolve name hn := by
    refine (alike_after fun c hc hname => (h c hc).2 ?_).handleOf
    rwa [hname]

namespace Source

variable {s s' : Source} {root : Option TypeName} {options : ScanOptions}
  {exclusion : Option Exclusion}

theorem scanWith_of_repeats (he : s.Ends root options exclusion) (recorded : Bool) (nothing : α)
    (view : Walk → α)
    (h : s.Repeats s' (s.scanWith root options exclusion recorded nothing view).trace) :
    s'.Ends root options exclusion ∧
      s'.scanWith root options exclusion recorded nothing view =
        s.scanWith root options exclusion recorded nothing view := by
  cases root with
  | none => exact ⟨by simp [Ends], rfl⟩
  | some root =>
    have hq : Walk.Ends ⟨s, root, options, exclusion, recorded⟩ :=
      (Walk.ends_recorded_iff recorded).mpr he
    obtain ⟨hends, hsame⟩ := Walk.finished_asking (s := s') hq h
    exact ⟨(Walk.ends_recorded_iff recorded).mp hends, congrArg (Walk.outcome view) hsame⟩

/-- The scan of `s'` ends and cannot be told from that of `s`. -/
structure SameScans (s s' : Source) (root : Option TypeName) (options : ScanOptions)
    (exclusion : Option Exclusion) : Prop where
  ends : s'.Ends root options exclusion
  report : s'.report root options exclusion = s.report root options exclusion
  graph : s'.graph root options exclusion = s.graph root options exclusion
  scan : s'.scan root options exclusion = s.scan root options exclusion

theorem Repeats.sameScans (h : s.Repeats s' (s.report root options exclusion).trace)
    (he : s.Ends root options exclusion) : SameScans s s' root options exclusion where
  ends := (scanWith_of_repeats he false _ _ h).1
  report := (scanWith_of_repeats he false _ _ h).2
  graph := by
    refine (scanWith_of_repeats he true _ _ ?_).2
    cases root with
    | none => exact h
    | some root => exact trace_graph he ▸ h
  scan := by
    refine (scanWith_of_repeats he false _ _ ?_).2
    cases root <;> exact h

/-- A scan that ends comes to the same, by the same questions, with every source that answers these
questions alike. So it goes also step by step with sources that change, whether or not there is an
end, and a universe may change under all names that were neither loaded nor resolved. -/
theorem scan_eq_of_repeats (root : Option TypeName) (options : ScanOptions)
    (exclusion : Option Exclusion) :
    (∀ s s' : Source,
      (s.resolvable.Finite ∨ options.Bounded → s.Ends root options exclusion) ∧
      (s.Ends root options exclusion → s.Repeats s' (s.report root options exclusion).trace →
        SameScans s s' root options exclusion)) ∧
    (∀ r ∈ root, ∀ env env' recorded n,
      let q : ScanRequest := ⟨env 0, r, options, exclusion, recorded⟩
      Walk.Follows env env' q n → Walk.runIn env' q n = Walk.runIn env q n) ∧
    ∀ (u : Universe) (cs : List Universe.Change),
      let trace := (u.source.report root options exclusion).trace
      (∀ c ∈ cs, ⟨c.name⟩ ∉ trace.loads ∧ c.name ∉ trace.resolutions) →
        u.source.Ends root options exclusion ∧
        SameScans u.source (u.after cs).source root options exclusion := by
  refine ⟨fun s s' => ⟨ends_of_finite_or_bounded, ?_⟩, ?_, ?_⟩
  · intro he h
    exact h.sameScans he
  · intro r _ env env' recorded n q h
    exact Walk.runIn_eq_of_follows h
  · intro u cs trace h
    have he : u.source.Ends root options exclusion := ends_of_finite u.finite_resolvable
    exact ⟨he, (Universe.repeats_after h).sameScans he⟩

def looped.bare : Source :=
  looped.loadedBy fun t => if t = ⟨"a.A"⟩ then looped.load t else .error (.notFound t.name)

/-- A scan of the root alone does not notice that the bytes of another type are gone, and a scan in
a universe does not notice what becomes of names that it has not met. -/
theorem scan_eq_of_repeats_looped :
    let exclusion : Option Exclusion := some (.everyNth 2)
    let scan (s : Source) := s.report (some ⟨"a.A"⟩) {} exclusion
    let q : ScanRequest := ⟨looped, ⟨"a.A"⟩, {}, exclusion, true⟩
    let u := Universe.after {} [.insertBytes "a.A" (utf8Bytes "a/B;a/C"), .insertStub "a.C"]
    let cs : List Universe.Change := [.insertStub "a.D", .markBroken "x.Y" "gone"]
    (looped.Ends (some ⟨"a.A"⟩) {} exclusion ∧ looped.Repeats looped.bare (scan looped).trace ∧
      looped.bare.load ⟨"a.B"⟩ ≠ looped.load ⟨"a.B"⟩ ∧ scan looped.bare = scan looped) ∧
    (Walk.Follows (fun _ => looped) (fun _ => looped.bare) q 1 ∧
      Walk.runIn (fun _ => looped.bare) q 1 = Walk.runIn (fun _ => looped) q 1) ∧
    (∀ c ∈ cs, ⟨c.name⟩ ∉ (scan u.source).trace.loads ∧
      c.name ∉ (scan u.source).trace.resolutions) ∧
    scan (u.after cs).source = scan u.source := by
  intro exclusion scan q u cs
  obtain ⟨hsame, hsteps, hchanges⟩ := scan_eq_of_repeats (some ⟨"a.A"⟩) {} exclusion
  have htrace : (scan looped).trace = ⟨[⟨"a.A"⟩], ["a.B"], [⟨"a.B"⟩]⟩ := by
    rw [show scan looped = _ from scanWith_eq_run 1 _ _ (by decide +kernel)]
    decide +kernel
  have hloads : (Walk.runIn (fun _ => looped) q 1).loads = [⟨"a.A"⟩] := by decide +kernel
  have hrepeats : looped.Repeats looped.bare (scan looped).trace := by
    rw [htrace]
    exact ⟨by simp [looped.bare, loadedBy], fun _ _ => rfl⟩
  have hfollows : Walk.Follows (fun _ => looped) (fun _ => looped.bare) q 1 := by
    refine ⟨fun hm hu _ => ?_, fun _ _ _ => rfl⟩
    obtain rfl := Nat.lt_one_iff.mp hm
    rw [Nat.zero_add, hloads, List.mem_singleton] at hu
    rw [hu]
    rfl
  have hunmet : ∀ c ∈ cs, ⟨c.name⟩ ∉ (scan u.source).trace.loads ∧
      c.name ∉ (scan u.source).trace.resolutions := by
    rw [show scan u.source = _ from scanWith_eq_run 1 _ _ (by decide +kernel)]
    decide +kernel
  obtain ⟨hbounded, hrepeated⟩ := hsame looped looped.bare
  have he := hbounded (.inr (by decide))
  refine ⟨⟨he, hrepeats, by decide, (hrepeated he hrepeats).report⟩, ⟨hfollows, ?_⟩, hunmet,
    (hchanges u cs hunmet).2.report⟩
  exact hsteps ⟨"a.A"⟩ rfl (fun _ => looped) (fun _ => looped.bare) true 1 hfollows

end Source

end RefScan
