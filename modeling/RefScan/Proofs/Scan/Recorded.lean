import RefScan.Proofs.Graph.Search
import RefScan.Proofs.Scan.Failure
import RefScan.Proofs.Scan.Reachable

/-!
# The graph of a scan and its report

Keeping a graph changes nothing else about a walk, so a graph scan asks what the report's scan asks
and gets the same answers, also from an exclusion that goes by its earlier questions. The graph
records the walk (`Records`) and pictures its report (`Pictures`): its types are the root and the
found types, its references are those of the loaded types that were not rejected, and closing it
from the root gives the found types back (`graph_agrees_with_report`).
-/

namespace RefScan

/-- `t` was asked about, and the answer at that time was to leave it out. -/
def Trace.Rejects (trace : Trace) (exclusion : Option Exclusion) (t : TypeName) : Prop :=
  ∃ e ∈ exclusion, ∃ earlier later,
    trace.questions = earlier ++ t :: later ∧ e earlier.reverse t = true

/-- The graph `g` shows what was found, as reported by `r`, and by which references. -/
structure Pictures (s : Source) (root : TypeName) (options : ScanOptions)
    (exclusion : Option Exclusion) (trace : Trace) (r : ScanReport) (g : Graph) : Prop where
  typeNames : g.typeNames = (r.found.insert root).toList
  /-- An exclusion is asked once about every type that a loaded type mentions beside itself. -/
  questions : trace.questions.Nodup ∧ ∀ t, t ∈ trace.questions ↔
    exclusion.isSome = true ∧ ∃ u ∈ trace.loads, s.Mentions options.encoding u t ∧ t ≠ u
  edges : ∀ u t, ⟨u, t⟩ ∈ g.edges ↔
    u ∈ trace.loads ∧ s.RefersTo options.encoding (trace.Rejects exclusion) u t
  expanded : g.stats.expanded = r.stats.expanded
  closure : g.closure root = r.found.toList

namespace Walk

variable {q : ScanRequest} {w w' : Walk} {g g' : Graph}

theorem eq_of_suffix_of_nodup {l l₁ l₂ : List TypeName} (hl : l.Nodup) (h₁ : t :: l₁ <:+ l)
    (h₂ : t :: l₂ <:+ l) : l₁ = l₂ := by
  have hnot {a b : List TypeName} (ha : t :: a <:+ l) (hb : t :: b <:+ a) : False :=
    (List.nodup_cons.mp (hl.sublist ha.sublist)).1 (hb.subset List.mem_cons_self)
  rcases List.suffix_or_suffix_of_suffix h₁ h₂ with h | h
  · rcases List.suffix_cons_iff.mp h with heq | h
    · exact (List.cons.inj heq).2
    · exact (hnot h₂ h).elim
  · rcases List.suffix_cons_iff.mp h with heq | h
    · exact (List.cons.inj heq).2.symm
    · exact (hnot h₁ h).elim

theorem Memo.verdict_iff_rejects (h : Memo q w) (hv : w.verdicts[t]? = some v) :
    v = true ↔ w.trace.Rejects q.exclusion t := by
  have hverdict := h.verdicts hv
  cases he : q.exclusion with
  | none =>
    rw [he] at hverdict
    have hverdict : v = false := hverdict
    simp [Trace.Rejects, hverdict]
  | some e =>
    rw [he] at hverdict
    obtain ⟨earlier, hs, rfl⟩ := hverdict
    constructor
    · intro htrue
      obtain ⟨later, hl⟩ := hs
      refine ⟨e, rfl, earlier.reverse, later.reverse, ?_, by rwa [List.reverse_reverse]⟩
      simp [trace, ← hl]
    · rintro ⟨e', he', before, later, hq, htrue⟩
      obtain rfl := Option.mem_some.mp he'
      have hs' : t :: before.reverse <:+ w.questions := by
        refine ⟨later.reverse, ?_⟩
        have hq : w.questions.reverse = before ++ t :: later := hq
        rw [← List.reverse_inj, hq]
        simp
      rwa [eq_of_suffix_of_nodup h.nodup hs hs']

-- ---------------------------------------------------------------------------
-- What the graph records
-- ---------------------------------------------------------------------------

structure Records (q : ScanRequest) (w : Walk) (g : Graph) : Prop where
  wellFormed : g.WellFormed
  refers : ∀ {u t}, g.content.Refers u t ↔ Refers q w u t
  types : ∀ {t}, t ∈ g.content.types ↔ t ∈ g.content.expanded ∨ ∃ u, g.content.Refers u t
  expanded : ∀ {t}, t ∈ g.content.expanded ↔ t ∈ w.loads ∧ q.source.Loads t
  card : g.content.expanded.card = w.stats.expanded

theorem Extended.mem_expanded (h : Extended q unit w' g g') :
    t ∈ g'.content.expanded ↔ (t = unit ∧ q.source.Loads unit) ∨ t ∈ g.content.expanded := by
  rcases h.expanded with ⟨hl, he⟩ | ⟨hl, he⟩
  · simp [he, hl]
  · simp [he, hl]

theorem Extended.types_step (h : Extended q unit w' g g')
    (hg : t ∈ g.content.types ↔ t ∈ g.content.expanded ∨ ∃ u, g.content.Refers u t) :
    t ∈ g'.content.types ↔ t ∈ g'.content.expanded ∨ ∃ u, g'.content.Refers u t := by
  rw [h.types, hg, h.mem_expanded]
  constructor
  · rintro (hu | ha | he | ⟨u, hu⟩)
    · exact .inl (.inl hu)
    · exact .inr ⟨unit, h.refers.mpr (.inl ⟨rfl, ha⟩)⟩
    · exact .inl (.inr he)
    · exact .inr ⟨u, h.refers.mpr (.inr hu)⟩
  · rintro ((hu | he) | ⟨u, hu⟩)
    · exact .inl hu
    · exact .inr (.inr (.inl he))
    · rcases h.refers.mp hu with ⟨-, ha⟩ | hu
      · exact .inr (.inl ha)
      · exact .inr (.inr (.inr ⟨u, hu⟩))

theorem Records.card_step (hr : Records q w g) (h : Stepped q unit depth rest next w w')
    (he : Extended q unit w' g g') (hnew : unit ∉ w.loads) :
    g'.content.expanded.card = w'.stats.expanded := by
  have hunit : unit ∉ g.content.expanded := fun hu => hnew (hr.expanded.mp hu).1
  rcases h.expanded with ⟨hl, hs⟩ | ⟨hl, hs⟩
  · have heq := (he.expanded.resolve_right fun hn => hn.1 hl).2
    rw [heq, hs, Finset.card_insert_of_notMem hunit, hr.card]
  · have heq := (he.expanded.resolve_left fun hn => hl hn.1).2
    rw [heq, hs, hr.card]

theorem Records.of_stepped (hr : Records q w g) (hi : Invariant q w)
    (hp : w.pending = (unit, depth) :: rest) (h : Stepped q unit depth rest next w w')
    (he : Extended q unit w' g g') : Records q w' g' := by
  refine ⟨he.wellFormed, ?_, he.types_step hr.types, ?_, hr.card_step h he (hi.not_mem_loads hp)⟩
  · intro u t
    rw [he.refers, hi.refers_step h, hr.refers]
  · intro t
    rw [he.mem_expanded, hr.expanded, h.loads, List.mem_cons]
    constructor
    · rintro (⟨rfl, hl⟩ | ⟨ht, hl⟩)
      · exact ⟨.inl rfl, hl⟩
      · exact ⟨.inr ht, hl⟩
    · rintro ⟨rfl | ht, hl⟩
      · exact .inl ⟨rfl, hl⟩
      · exact .inr ⟨ht, hl⟩

theorem records_start (q : ScanRequest) : Records q (start q) .empty := by
  constructor
  case wellFormed => exact Graph.wellFormed_empty
  all_goals simp [start, Graph.empty, Graph.content, Graph.types, Graph.Content.Refers, Refers]

theorem records_run (h : q.recorded = true) (n : Nat) :
    ∃ g, (run q n (start q)).graph = some g ∧ Records q (run q n (start q)) g := by
  refine (run_induction (P := fun w => ∃ g, w.graph = some g ∧ Records q w g)
    ⟨.empty, by simp [start, h], records_start q⟩ ?_ n).2
  rintro w w' unit depth rest next hi ⟨g, hg, hr⟩ hp hs
  rcases hs.graph with ⟨hnone, -⟩ | ⟨g₁, g', hg₁, hg', he⟩
  · simp [hg] at hnone
  · obtain rfl := Option.some.inj (hg.symm.trans hg₁)
    exact ⟨g', hg', hr.of_stepped hi hp hs (he hr.wellFormed)⟩

theorem records_finished (he : Ends q) (h : q.recorded = true) :
    ∃ g, (finished q).graph = some g ∧ Records q (finished q) g := by
  obtain ⟨n, hn⟩ := he.exists_run
  exact hn ▸ records_run h _

theorem records_getD (he : Ends q) (h : q.recorded = true) :
    Records q (finished q) ((finished q).graph.getD .empty) := by
  obtain ⟨g, hg, hr⟩ := records_finished he h
  rwa [hg, Option.getD_some]

-- ---------------------------------------------------------------------------
-- What the graph shows
-- ---------------------------------------------------------------------------

theorem Records.mem_types_iff (hr : Records q w g) (hi : Invariant q w) (hroot : q.root ∈ w.loads)
    (hload : q.source.Loads q.root) : t ∈ g.content.types ↔ t ∈ w.found.insert q.root := by
  rw [hr.types, Std.ExtTreeSet.mem_insert, Std.LawfulEqCmp.compare_eq_iff_eq]
  constructor
  · rintro (he | ⟨u, hu⟩)
    · have hv := hi.visited (.inl (hr.expanded.mp he).1)
      exact (hi.seen.visited.mp hv).imp Eq.symm And.right
    · by_cases ht : q.root = t
      · exact .inl ht
      · exact .inr (hi.found.mpr ⟨Ne.symm ht, u, hr.refers.mp hu⟩)
  · rintro (rfl | hf)
    · exact .inl (hr.expanded.mpr ⟨hroot, hload⟩)
    · obtain ⟨-, u, hu⟩ := hi.found.mp hf
      exact .inr ⟨u, hr.refers.mpr hu⟩

theorem Records.mem_behind_iff (hr : Records q w g) (hi : Invariant q w) :
    t ∈ g.content.behind q.root ↔ t ∈ w.found := by
  constructor
  · rintro ⟨hne, h⟩
    obtain ⟨u, -, hu⟩ := Relation.TransGen.tail'_iff.mp h
    exact hi.found.mpr ⟨hne, u, hr.refers.mp hu⟩
  · intro h
    exact ⟨hi.seen.found h,
      Relation.TransGen.mono (fun _ _ => hr.refers.mpr) _ _ (hi.reachable h)⟩

theorem Records.mem_edges_iff (hr : Records q w g) : ⟨u, t⟩ ∈ g.edges ↔ Refers q w u t := by
  rw [hr.wellFormed.lists_edges.mem, Finset.mem_coe]
  exact hr.refers

theorem Records.expanded_eq (hr : Records q w g) : g.stats.expanded = w.stats.expanded := by
  rw [hr.wellFormed.stats_eq]
  exact hr.card

theorem Records.pictures (hr : Records q w g) (hi : Invariant q w) (hl : Ledger q w)
    (hroot : q.root ∈ w.loads) (hload : q.source.Loads q.root) :
    Pictures q.source q.root q.options q.exclusion w.trace ⟨w.found, w.stats⟩ g := by
  have hmem {u : TypeName} : u ∈ w.trace.loads ↔ u ∈ w.loads := List.mem_reverse
  constructor
  case typeNames =>
    exact hr.wellFormed.lists_typeNames.eq_toList fun t => hr.mem_types_iff hi hroot hload
  case questions =>
    refine ⟨List.nodup_reverse.mpr hi.memo.nodup, fun t => ?_⟩
    simp only [trace, List.mem_reverse, hl.tally.questions, hi.asked]
  case edges =>
    intro u t
    rw [hr.mem_edges_iff, hmem]
    exact hi.refers_iff fun hv => hi.memo.verdict_iff_rejects hv
  case expanded => exact hr.expanded_eq
  case closure => exact (hr.wellFormed.lists_closure q.root).eq_toList fun t => hr.mem_behind_iff hi

theorem runIn_unrecorded (env : Nat → Source) (q : ScanRequest) (n : Nat) :
    runIn env { q with recorded := false } n = (runIn env q n).unrecorded := by
  induction n with
  | zero => rfl
  | succ n ih =>
    rw [runIn, ih]
    exact (forgets_graph (q.asking (env n))).step (runIn env q n)

end Walk

/-- A graph scan comes to an end where the report's scan does. It asks the same and fails in the
same way; otherwise the graph pictures the report, also if the source changed from step to step. -/
theorem Source.graph_agrees_with_report (root : TypeName) (options : ScanOptions)
    (exclusion : Option Exclusion) :
    (∀ s : Source,
      let report := s.report (some root) options exclusion
      let graph := s.graph (some root) options exclusion
      let Ends (recorded : Bool) := Walk.Ends ⟨s, root, options, exclusion, recorded⟩
      (s.resolvable.Finite ∨ options.Bounded → Ends false) ∧ (Ends true ↔ Ends false) ∧
      (Ends false → graph.trace = report.trace ∧
        AgreeBy (Pictures s root options exclusion report.trace) report.result graph.result)) ∧
    ∀ (env : Nat → Source) (n : Nat),
      let q : ScanRequest := ⟨env 0, root, options, exclusion, true⟩
      let w := Walk.runIn env q n
      Walk.runIn env { q with recorded := false } n = w.unrecorded ∧
      (w.pending = [] → w.failure = none →
        ∃ s g, Walk.Recalls env q n s ∧ w.graph = some g ∧
          Pictures s root options exclusion w.trace ⟨w.found, w.stats⟩ g) := by
  constructor
  · intro s report graph Ends
    have hends (recorded : Bool) : Ends recorded ↔ s.Ends (some root) options exclusion :=
      Walk.ends_recorded_iff recorded
    refine ⟨fun h => (hends false).mpr (ends_of_finite_or_bounded h),
      (hends true).trans (hends false).symm, fun he => ?_⟩
    let q : ScanRequest := ⟨s, root, options, exclusion, true⟩
    have he : Walk.Ends q := (hends true).mpr ((hends false).mp he)
    have hsame : Walk.finished ⟨s, root, options, exclusion, false⟩ =
        (Walk.finished q).unrecorded := Walk.finished_unrecorded he
    have htrace : report.trace = (Walk.finished q).unrecorded.trace := congrArg Walk.trace hsame
    have hfailure := congrArg Walk.failure hsame
    refine ⟨htrace.symm, Walk.outcome_agreeBy hfailure.symm fun hf => ?_⟩
    have hload : s.Loads root := Walk.loads_root_of_failure_none he (hfailure.symm.trans hf)
    rw [hsame, htrace]
    exact (Walk.records_getD he rfl).pictures (Walk.finished_invariant he) (Walk.ledger_finished he)
      (Walk.root_mem_loads_finished he) hload
  · intro env n q w
    refine ⟨Walk.runIn_unrecorded env q n, fun hdrained hf => ?_⟩
    let known := Walk.known env q n
    have hw : w = Walk.finished (q.asking known) := Walk.runIn_eq_finished hdrained
    have he : Walk.Ends (q.asking known) := Walk.ends_known hdrained
    obtain ⟨g, hg, hr⟩ := Walk.records_finished he rfl
    rw [hw] at hf ⊢
    exact ⟨known, g, Walk.recalls_known env q n, hg,
      hr.pictures (Walk.finished_invariant he) (Walk.ledger_finished he)
        (Walk.root_mem_loads_finished he) (Walk.loads_root_of_failure_none he hf)⟩

/-- The exclusion rejects every second type, the root among them. That is no reference then, but the
one to the second type stands. -/
theorem Source.graph_agrees_with_report_looped :
    let options : ScanOptions := { recursive := true }
    let exclusion : Option Exclusion := some (.everyNth 2)
    let report := looped.report (some ⟨"a.A"⟩) options exclusion
    looped.resolvable.Finite ∧ report.trace.questions = [⟨"a.B"⟩, ⟨"a.A"⟩, ⟨"a.D"⟩, ⟨"a.C"⟩] ∧
    ∃ r g, report.result = .ok r ∧ (looped.graph (some ⟨"a.A"⟩) options exclusion).result = .ok g ∧
      ⟨⟨"a.A"⟩, ⟨"a.B"⟩⟩ ∈ g.edges ∧ ⟨⟨"a.B"⟩, ⟨"a.A"⟩⟩ ∉ g.edges ∧
      g.closure ⟨"a.A"⟩ = r.found.toList := by
  intro options exclusion report
  obtain ⟨hends, -, hagree⟩ :=
    (graph_agrees_with_report ⟨"a.A"⟩ options exclusion).1 looped
  have he : looped.Ends (some ⟨"a.A"⟩) options exclusion := ends_of_finite looped.finite_resolvable
  have hload : looped.load ⟨"a.A"⟩ = .ok (utf8Bytes "a/B") := rfl
  obtain ⟨-, hpictures⟩ := hagree (hends (.inl looped.finite_resolvable))
  have hr : report.result = .ok _ := scanWith_of_load he hload _ _
  have hg : (looped.graph (some ⟨"a.A"⟩) options exclusion).result = .ok _ :=
    scanWith_of_load he hload _ _
  rw [hr, hg] at hpictures
  have htrace : report.trace = ⟨[⟨"a.A"⟩, ⟨"a.B"⟩, ⟨"a.D"⟩], ["a.B", "a.A", "a.D", "x.Y"],
      [⟨"a.B"⟩, ⟨"a.A"⟩, ⟨"a.D"⟩, ⟨"a.C"⟩]⟩ := by
    rw [show report = _ from scanWith_eq_run 3 _ _ (by decide +kernel)]
    decide +kernel
  rw [htrace] at hpictures
  refine ⟨looped.finite_resolvable, by rw [htrace], _, _, hr, hg, ?_, ?_, hpictures.closure⟩
  · refine (hpictures.edges _ _).mpr ⟨by simp, looped.mentions_first.mpr rfl, by decide, ?_⟩
    rintro ⟨e, he, earlier, later, hquestions, hreject⟩
    obtain rfl := Option.mem_some.mp he
    cases earlier with
    | nil => exact absurd hreject (by decide)
    | cons b earlier =>
      have htail : [⟨"a.A"⟩, ⟨"a.D"⟩, ⟨"a.C"⟩] = earlier ++ ⟨"a.B"⟩ :: later :=
        (List.cons.inj hquestions).2
      have hmem : (⟨"a.B"⟩ : TypeName) ∈ earlier ++ ⟨"a.B"⟩ :: later := by simp
      rw [← htail] at hmem
      exact absurd hmem (by decide)
  · intro h
    obtain ⟨-, -, -, hkept⟩ := (hpictures.edges _ _).mp h
    exact hkept ⟨_, rfl, [⟨"a.B"⟩], [⟨"a.D"⟩, ⟨"a.C"⟩], rfl, by decide⟩

end RefScan
