import Mathlib.Data.Set.Card
import RefScan.Proofs.Scan.Distance
import RefScan.Proofs.Scan.Recorded
import RefScan.Proofs.Walk.Ledger

/-!
# The order of a walk does not matter

Two walks that load the same types, in whatever order (`LoadsAlike`), find the same types and end
with the same counters and the same graph but for the numbering of its types, provided that the
exclusion is a predicate. A shortest way has no type twice, and each type on it but the first is one
that the source resolves to. So a depth limit that is no less than the number of these types is
none, and level by level comes to the same as depth first (`unlimited_agrees_with_byLevel`).
-/

namespace RefScan

attribute [ext] ScanStats

namespace Graph

/-- What the two list is the same, though they may number their types differently. -/
def ListsAlike (g g' : Graph) : Prop :=
  g.typeNames = g'.typeNames ∧ g.edges = g'.edges ∧ g.stats = g'.stats

theorem WellFormed.listsAlike {g g' : Graph} (hw : g.WellFormed) (hw' : g'.WellFormed)
    (h : g.content = g'.content) : ListsAlike g g' := by
  refine ⟨?_, ?_, by rw [hw.stats_eq, hw'.stats_eq, h]⟩
  · exact (h ▸ hw.lists_typeNames).unique ByName.asymm hw'.lists_typeNames
  · exact (h ▸ hw.lists_edges).unique ByEnds.asymm hw'.lists_edges

end Graph

namespace Walk

variable {q : ScanRequest} {o : ScanOptions} {p : Option (TypeName → Bool)} {g g' : Graph}

-- ---------------------------------------------------------------------------
-- Walks that load the same types
-- ---------------------------------------------------------------------------

/-- Other options for a request that make no difference to which types are loaded. -/
structure LoadsAlike (q : ScanRequest) (o : ScanOptions) : Prop where
  ends : Ends q
  ends_with : Ends { q with options := o }
  encoding : o.encoding = q.options.encoding
  mem_loads : ∀ {t}, t ∈ (finished { q with options := o }).loads ↔ t ∈ (finished q).loads

namespace LoadsAlike

theorem invariant (h : LoadsAlike q o) : Invariant q (finished q) := finished_invariant h.ends

theorem invariant_with (h : LoadsAlike q o) :
    Invariant { q with options := o } (finished { q with options := o }) :=
  finished_invariant h.ends_with

theorem failure_eq (h : LoadsAlike q o) :
    (finished { q with options := o }).failure = (finished q).failure :=
  finished_failure_congr h.ends h.ends_with rfl rfl

theorem refers_iff (h : LoadsAlike q o) (hp : q.exclusion = p.map .ofPredicate) :
    Refers { q with options := o } (finished { q with options := o }) u t ↔
      Refers q (finished q) u t := by
  rw [h.invariant_with.refers_iff_of_predicate hp,
    h.invariant.refers_iff_of_predicate hp, h.mem_loads, h.encoding]

theorem found_eq (h : LoadsAlike q o) (hp : q.exclusion = p.map .ofPredicate) :
    (finished { q with options := o }).found = (finished q).found := by
  refine Std.ExtTreeSet.ext_mem fun t => ?_
  rw [h.invariant_with.found, h.invariant.found]
  simp only [h.refers_iff hp]

theorem perm_loads (h : LoadsAlike q o) :
    (finished { q with options := o }).loads.Perm (finished q).loads := by
  exact (List.perm_ext_iff_of_nodup h.invariant_with.nodup_loads
    h.invariant.nodup_loads).mpr fun t => h.mem_loads

theorem perm_resolutions (h : LoadsAlike q o) :
    (finished { q with options := o }).resolutions.Perm (finished q).resolutions := by
  have hl := ledger_finished h.ends
  have hl' := ledger_finished h.ends_with
  refine (List.perm_ext_iff_of_nodup hl'.tally.nodup hl.tally.nodup).mpr fun name => ?_
  rw [hl'.tally.resolutions, hl.tally.resolutions, hl'.resolved, hl.resolved]
  simp only [h.mem_loads, h.encoding]

theorem perm_questions (h : LoadsAlike q o) :
    (finished { q with options := o }).questions.Perm (finished q).questions := by
  have hi := h.invariant
  have hi' := h.invariant_with
  refine (List.perm_ext_iff_of_nodup hi'.memo.nodup hi.memo.nodup).mpr fun t => ?_
  rw [(ledger_finished h.ends_with).tally.questions,
    (ledger_finished h.ends).tally.questions, hi'.asked, hi.asked]
  simp only [h.mem_loads, h.encoding]

theorem stats_eq (h : LoadsAlike q o) (hp : q.exclusion = p.map .ofPredicate)
    (hf : (finished q).failure = none) :
    (finished { q with options := o }).stats = (finished q).stats := by
  have hl := ledger_finished h.ends
  have hl' := ledger_finished h.ends_with
  have hf' : (finished { q with options := o }).failure = none := h.failure_eq.trans hf
  ext
  case expanded =>
    rw [hl.expanded, hl'.expanded]
    exact h.perm_loads.countP_eq _
  case candidates =>
    rw [hl.candidates, hl'.candidates, h.encoding]
    exact (h.perm_loads.map _).sum_eq
  case unresolved =>
    rw [hl.tally.unresolved, hl'.tally.unresolved]
    exact h.perm_resolutions.countP_eq _
  case excluded =>
    rw [hl.tally.excluded_of_predicate hp, hl'.tally.excluded_of_predicate hp]
    exact h.perm_questions.countP_eq _
  case abandoned =>
    rw [hl.abandoned hf, hl'.abandoned hf']
    exact h.perm_loads.countP_eq _

/-- The graphs may differ in how they number the types. -/
theorem content_eq (h : LoadsAlike q o) (hp : q.exclusion = p.map .ofPredicate)
    (hf : (finished q).failure = none) (hg : Records q (finished q) g)
    (hg' : Records { q with options := o } (finished { q with options := o }) g') :
    g'.content = g.content := by
  have hload : q.source.Loads q.root := loads_root_of_failure_none h.ends hf
  ext t
  case types =>
    rw [hg'.mem_types_iff h.invariant_with (root_mem_loads_finished h.ends_with) hload,
      hg.mem_types_iff h.invariant (root_mem_loads_finished h.ends) hload, h.found_eq hp]
  case expanded => rw [hg'.expanded, hg.expanded, h.mem_loads]
  case references => exact hg'.refers.trans ((h.refers_iff hp).trans hg.refers.symm)

theorem report_eq (h : LoadsAlike q o) (hp : q.exclusion = p.map .ofPredicate) :
    ((finished { q with options := o }).outcome fun w => ScanReport.mk w.found w.stats).result =
      ((finished q).outcome fun w => ScanReport.mk w.found w.stats).result := by
  simp only [outcome, h.failure_eq]
  cases hf : (finished q).failure with
  | some e => rfl
  | none => rw [h.found_eq hp, h.stats_eq hp hf]

theorem graph_agrees (h : LoadsAlike q o) (hp : q.exclusion = p.map .ofPredicate)
    (hrecorded : q.recorded = true) :
    AgreeBy Graph.ListsAlike
      ((finished { q with options := o }).outcome fun w => w.graph.getD .empty).result
      ((finished q).outcome fun w => w.graph.getD .empty).result := by
  have hr := records_getD h.ends hrecorded
  have hr' := records_getD h.ends_with hrecorded
  refine outcome_agreeBy h.failure_eq.symm fun hf => ?_
  exact hr'.wellFormed.listsAlike hr.wellFormed
    (h.content_eq hp (h.failure_eq.symm.trans hf) hr hr')

end LoadsAlike

-- ---------------------------------------------------------------------------
-- Depth first and level by level
-- ---------------------------------------------------------------------------

theorem mem_loads_finished_iff_reachable (he : Ends q) (hrec : q.options.recursive = true)
    (hmax : q.options.maxDepth = none) (hp : q.exclusion = p.map .ofPredicate) :
    t ∈ (finished q).loads ↔ Relation.ReflTransGen
      (q.source.RefersTo q.options.encoding fun t => p.any (· t)) q.root t := by
  have hi := finished_invariant he
  have hvisited : t ∈ (finished q).loads ↔ t ∈ (finished q).visited :=
    ⟨fun ht => hi.visited (.inl ht), loads_of_visited_of_unlimited he hmax⟩
  rw [hvisited, hi.seen.visited, mem_found_finished_iff he hrec hmax hp,
    Relation.reflTransGen_iff_eq_or_transGen]
  constructor
  · rintro (rfl | ⟨-, -, hr⟩)
    · exact .inl rfl
    · exact .inr hr
  · rintro (rfl | hr)
    · exact .inl rfl
    · by_cases ht : t = q.root
      · exact .inl ht
      · exact .inr ⟨hrec, ht, hr⟩

theorem loadsAlike_of_encard_le {d : Nat} (hrec : q.options.recursive = true)
    (hmax : q.options.maxDepth = none) (hp : q.exclusion = p.map .ofPredicate)
    (hd : q.source.resolvable.encard ≤ d) :
    LoadsAlike q { q.options with maxDepth := some d } := by
  let byLevel : ScanRequest := { q with options := { q.options with maxDepth := some d } }
  have he : Ends q := ends_of_finite (Set.finite_of_encard_le_coe hd)
  refine ⟨he, ends_of_maxDepth (q := byLevel) rfl, rfl, fun {t} => ?_⟩
  rw [mem_loads_finished_iff_distance (q := byLevel) hrec rfl hp,
    mem_loads_finished_iff_reachable he hrec hmax hp]
  constructor
  · rintro ⟨n, -, hdist⟩
    exact hdist.1.reflTransGen
  · intro hreach
    obtain ⟨k, hk⟩ := exists_steps_of_reflTransGen hreach
    obtain ⟨n, -, hdist⟩ := IsDistance.exists_le hk
    have hn : (n : ℕ∞) ≤ d := (hdist.le_encard fun hr => hr.1.mem_resolvable).trans hd
    exact ⟨n, by exact_mod_cast hn, hdist⟩

end Walk

namespace Source

/-- With as many levels as there are types to resolve to, a scan by levels comes to the same as one
without limit, and both end: the same error or the same report, and graphs that list the same. -/
theorem unlimited_agrees_with_byLevel (s : Source) (root : Option TypeName) (encoding : Encoding)
    (p : Option (TypeName → Bool)) {N d : Nat} (hN : s.resolvable.encard ≤ N) (hd : N ≤ d) :
    let unlimited : ScanOptions := { encoding, recursive := true }
    let byLevel : ScanOptions := { encoding, recursive := true, maxDepth := some d }
    let exclusion := p.map Exclusion.ofPredicate
    s.Ends root unlimited exclusion ∧ s.Ends root byLevel exclusion ∧
    (s.report root byLevel exclusion).result = (s.report root unlimited exclusion).result ∧
    AgreeBy Graph.ListsAlike (s.graph root byLevel exclusion).result
      (s.graph root unlimited exclusion).result := by
  have hle : s.resolvable.encard ≤ d := hN.trans (by exact_mod_cast hd)
  have hfinite : s.resolvable.Finite := Set.finite_of_encard_le_coe hle
  refine ⟨ends_of_finite hfinite, ends_of_finite hfinite, ?_⟩
  cases root with
  | none => exact ⟨rfl, rfl, rfl, rfl⟩
  | some root =>
    let q (recorded : Bool) : ScanRequest :=
      ⟨s, root, { encoding, recursive := true }, p.map .ofPredicate, recorded⟩
    have h (recorded : Bool) : Walk.LoadsAlike (q recorded) _ :=
      Walk.loadsAlike_of_encard_le (p := p) rfl rfl rfl hle
    exact ⟨(h false).report_eq rfl, (h true).graph_agrees rfl rfl⟩

theorem looped.encard_resolvable_le : looped.resolvable.encard ≤ (4 : Nat) := by
  refine (Set.encard_le_encard looped.resolvable_subset).trans ?_
  rw [Set.encard_coe_eq_coe_finsetCard]
  exact_mod_cast (by decide : looped.types.card ≤ 4)

theorem looped_unlimited_agrees_with_byLevel :
    let unlimited : ScanOptions := { encoding := .utf8, recursive := true }
    let byLevel : ScanOptions := { encoding := .utf8, recursive := true, maxDepth := some 5 }
    let exclusion : Option Exclusion := some (.ofPredicate looped.rejects)
    looped.resolvable.encard ≤ (4 : Nat) ∧ 4 ≤ 5 ∧
    (∃ r, (looped.report (some ⟨"a.A"⟩) unlimited exclusion).result = .ok r ∧
      (looped.report (some ⟨"a.A"⟩) byLevel exclusion).result = .ok r) ∧
    ∃ g g', (looped.graph (some ⟨"a.A"⟩) byLevel exclusion).result = .ok g ∧
      (looped.graph (some ⟨"a.A"⟩) unlimited exclusion).result = .ok g' ∧
      g.typeNames = g'.typeNames ∧ g.edges = g'.edges ∧ g.stats = g'.stats := by
  intro unlimited byLevel exclusion
  have hN : looped.resolvable.encard ≤ (4 : Nat) := looped.encard_resolvable_le
  have hd : 4 ≤ 5 := by decide
  have hload : looped.load ⟨"a.A"⟩ = .ok (utf8Bytes "a/B") := rfl
  obtain ⟨he, he', hreport, hgraph⟩ := unlimited_agrees_with_byLevel looped (some ⟨"a.A"⟩) .utf8
    (some looped.rejects) hN hd
  have hr : (looped.report (some ⟨"a.A"⟩) unlimited exclusion).result = .ok _ :=
    scanWith_of_load he hload _ _
  have hg : (looped.graph (some ⟨"a.A"⟩) byLevel exclusion).result = .ok _ :=
    scanWith_of_load he' hload _ _
  have hg' : (looped.graph (some ⟨"a.A"⟩) unlimited exclusion).result = .ok _ :=
    scanWith_of_load he hload _ _
  exact ⟨hN, hd, ⟨_, hr, hreport.trans hr⟩, _, _, hg, hg', hgraph.of_ok hg hg'⟩

end Source

end RefScan
