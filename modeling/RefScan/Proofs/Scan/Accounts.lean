import RefScan.Proofs.Scan.Distance
import RefScan.Proofs.Scan.Failure
import RefScan.Proofs.Scan.Recorded
import RefScan.Proofs.Walk.Ledger

/-!
# The report of a scan accounts for its questions

Every question of a successful scan is asked once, which questions there are follows from the types
whose bytes were had, and the counters of the report count their answers (`Accounts`). Nothing is
assumed of the exclusion, and the source may change under way. That a scan without depth limit
counts its root and its found types, and a scan that is not recursive its root alone, is a matter of
which types it loads.
-/

namespace RefScan

def Trace.expanded (trace : Trace) (s : Source) : List TypeName :=
  trace.loads.filter fun u => (s.load u).isOk

/-- What the questions of a scan and its report have to do with each other. -/
structure Accounts (s : Source) (root : TypeName) (options : ScanOptions)
    (exclusion : Option Exclusion) (trace : Trace) (r : ScanReport) : Prop where
  loads : trace.loads.Nodup
  resolutions : trace.resolutions.Nodup ∧ ∀ name, name ∈ trace.resolutions ↔
    ∃ u ∈ trace.expanded s, name ∈ s.names options.encoding u
  /-- A type that only mentions itself is not asked about. -/
  questions : trace.questions.Nodup ∧ ∀ t, t ∈ trace.questions ↔
    exclusion.isSome = true ∧ ∃ u ∈ trace.expanded s, s.Mentions options.encoding u t ∧ t ≠ u
  expanded : r.stats.expanded = (trace.expanded s).length
  abandoned : r.stats.abandoned = trace.loads.countP fun u => !(s.load u).isOk
  candidates : r.stats.candidates =
    ((trace.expanded s).map fun u => (s.names options.encoding u).size).sum
  unresolved : r.stats.unresolved = trace.resolutions.countP fun name => !(s.resolve name).isOk
  excluded : r.stats.excluded = exclusion.elim 0 (·.rejections trace.questions.reverse)
  rejected : ∀ t, trace.Rejects exclusion t → t ∉ r.found
  root : root ∉ r.found
  unlimited : options.recursive = true → options.maxDepth = none →
    r.stats.expanded + r.stats.abandoned = 1 + r.found.size
  flat : options.recursive = false → r.stats.expanded = 1 ∧ r.stats.abandoned = 0

namespace Walk

variable {q : ScanRequest} {w : Walk} {s : Source}

-- ---------------------------------------------------------------------------
-- Types whose bytes were had
-- ---------------------------------------------------------------------------

theorem mem_expanded_trace : u ∈ w.trace.expanded s ↔ u ∈ w.loads ∧ s.Loads u := by
  rw [Trace.expanded, List.mem_filter, Source.isOk_iff_loads, trace, List.mem_reverse]

theorem size_names_of_not_isOk (h : ¬ (s.load u).isOk = true) : (s.names encoding u).size = 0 := by
  unfold Source.names
  cases hload : s.load u with
  | ok bytes => simp [hload, Except.isOk, Except.toBool] at h
  | error cause => rfl

theorem sum_size_names_filter (s : Source) (encoding : Encoding) (us : List TypeName) :
    ((us.filter fun u => (s.load u).isOk).map fun u => (s.names encoding u).size).sum =
      (us.map fun u => (s.names encoding u).size).sum := by
  induction us with
  | nil => rfl
  | cons u us ih =>
    rw [List.map_cons, List.sum_cons, ← ih, List.filter_cons]
    split
    · rw [List.map_cons, List.sum_cons]
    · rename_i hu
      rw [size_names_of_not_isOk hu, Nat.zero_add]

-- ---------------------------------------------------------------------------
-- Which types are loaded
-- ---------------------------------------------------------------------------

theorem loads_finished_of_unlimited (he : Ends q) (hrec : q.options.recursive = true)
    (hmax : q.options.maxDepth = none) :
    (finished q).loads.Perm (q.root :: (finished q).found.toList) := by
  have hi := finished_invariant he
  have hroot : q.root ∉ (finished q).found.toList :=
    fun hr => hi.seen.found (Std.ExtTreeSet.mem_toList.mp hr) rfl
  refine (List.perm_ext_iff_of_nodup hi.nodup_loads
    (List.nodup_cons.mpr ⟨hroot, Graph.nodup_toList⟩)).mpr fun t => ?_
  rw [List.mem_cons, Std.ExtTreeSet.mem_toList]
  constructor
  · intro ht
    exact (hi.seen.visited.mp (hi.visited (.inl ht))).imp_right And.right
  · intro ht
    exact loads_of_visited_of_unlimited he hmax
      (hi.seen.visited.mpr (ht.imp_right fun hf => ⟨hrec, hf⟩))

theorem Invariant.not_rejects (hi : Invariant q w) (ht : t ∈ w.found) :
    ¬ w.trace.Rejects q.exclusion t := by
  obtain ⟨-, u, -, -, -, hv⟩ := hi.found.mp ht
  intro hr
  cases (hi.memo.verdict_iff_rejects hv).mpr hr

theorem expanded_add_abandoned (he : Ends q) (h : (finished q).failure = none) :
    (finished q).stats.expanded + (finished q).stats.abandoned = (finished q).loads.length := by
  have hl := ledger_finished he
  rw [hl.expanded, hl.abandoned h, List.length_eq_countP_add_countP fun u => (q.source.load u).isOk]
  simp

-- ---------------------------------------------------------------------------
-- The account
-- ---------------------------------------------------------------------------

theorem accounts_finished (he : Ends q) (h : (finished q).failure = none) :
    Accounts q.source q.root q.options q.exclusion (finished q).trace
      ⟨(finished q).found, (finished q).stats⟩ := by
  have hi := finished_invariant he
  have hl := ledger_finished he
  constructor
  case loads => exact List.nodup_reverse.mpr hi.nodup_loads
  case resolutions =>
    refine ⟨List.nodup_reverse.mpr hl.tally.nodup, fun name => ?_⟩
    rw [trace, List.mem_reverse, hl.tally.resolutions, hl.resolved]
    constructor
    · rintro ⟨u, hu, hn⟩
      exact ⟨u, mem_expanded_trace.mpr ⟨hu, Source.loads_of_mem_names hn⟩, hn⟩
    · rintro ⟨u, hu, hn⟩
      exact ⟨u, (mem_expanded_trace.mp hu).1, hn⟩
  case questions =>
    refine ⟨List.nodup_reverse.mpr hi.memo.nodup, fun t => ?_⟩
    rw [trace, List.mem_reverse, hl.tally.questions, hi.asked]
    refine and_congr_right fun _ => ⟨?_, ?_⟩
    · rintro ⟨u, hu, hm⟩
      exact ⟨u, mem_expanded_trace.mpr ⟨hu, hm.1.loads⟩, hm⟩
    · rintro ⟨u, hu, hm⟩
      exact ⟨u, (mem_expanded_trace.mp hu).1, hm⟩
  case expanded =>
    rw [hl.expanded, Trace.expanded, ← List.countP_eq_length_filter, trace, List.countP_reverse]
  case abandoned => rw [hl.abandoned h, trace, List.countP_reverse]
  case candidates =>
    rw [hl.candidates, Trace.expanded, sum_size_names_filter, trace, List.map_reverse,
      List.sum_reverse]
  case unresolved => rw [hl.tally.unresolved, trace, List.countP_reverse]
  case excluded => rw [hl.tally.excluded, trace, List.reverse_reverse]
  case rejected => exact fun t hr ht => hi.not_rejects ht hr
  case root => exact fun hr => hi.seen.found hr rfl
  case unlimited =>
    intro hrec hmax
    rw [expanded_add_abandoned he h, (loads_finished_of_unlimited he hrec hmax).length_eq,
      List.length_cons, Std.ExtTreeSet.length_toList, Nat.add_comm]
  case flat =>
    intro hrec
    have hloads : (finished q).loads = [q.root] :=
      loads_finished_of_not_expandsAt (by simp [ScanOptions.expandsAt, hrec])
    have hroot : (q.source.load q.root).isOk = true :=
      Source.isOk_iff_loads.mpr (loads_root_of_failure_none he h)
    rw [hl.expanded, hl.abandoned h, hloads]
    simp [hroot]

end Walk

namespace Source

theorem trace_graph {s : Source} {options : ScanOptions} {exclusion : Option Exclusion}
    (he : s.Ends (some root) options exclusion) :
    (s.graph (some root) options exclusion).trace =
      (s.report (some root) options exclusion).trace := by
  have hsame := Walk.finished_unrecorded ((Walk.ends_recorded_iff true).mpr he)
  simp only [graph, report, scanWith, Walk.outcome, hsame]
  rfl

/-- A successful scan asks each of its questions once, and its report counts the answers. Scans
for the graph or the found types alone ask the same. If the source changes from step to step, the
report accounts for the answers that were given. -/
theorem report_accounts (root : TypeName) (options : ScanOptions) (exclusion : Option Exclusion) :
    (∀ s : Source,
      (s.resolvable.Finite ∨ options.Bounded → s.Ends (some root) options exclusion) ∧
      (s.Ends (some root) options exclusion →
        ∀ r, (s.report (some root) options exclusion).result = .ok r →
          let trace := (s.report (some root) options exclusion).trace
          Accounts s root options exclusion trace r ∧
            (s.graph (some root) options exclusion).trace = trace ∧
            (s.scan (some root) options exclusion).trace = trace)) ∧
    ∀ (env : Nat → Source) (recorded : Bool) (n : Nat),
      let q : ScanRequest := ⟨env 0, root, options, exclusion, recorded⟩
      let w := Walk.runIn env q n
      w.pending = [] → w.failure = none →
        ∃ s, Walk.Recalls env q n s ∧
          Accounts s root options exclusion w.trace ⟨w.found, w.stats⟩ := by
  constructor
  · refine fun s => ⟨ends_of_finite_or_bounded, fun he r h => ?_⟩
    obtain ⟨hf, rfl⟩ := Walk.outcome_eq_ok h
    exact ⟨Walk.accounts_finished ((Walk.ends_recorded_iff false).mpr he) hf, trace_graph he, rfl⟩
  · intro env recorded n q w hdrained hf
    have hw : w = Walk.finished (q.asking (Walk.known env q n)) := Walk.runIn_eq_finished hdrained
    refine ⟨Walk.known env q n, Walk.recalls_known env q n, ?_⟩
    rw [hw] at hf ⊢
    exact Walk.accounts_finished (Walk.ends_known hdrained) hf

def looped.vanishing (n : Nat) : Source :=
  if n = 0 then looped else looped.loadedBy fun u => .error (.notFound u.name)

/-- An exclusion that rejects every second type it is asked about, and a source that changes. -/
theorem report_accounts_looped :
    let options : ScanOptions := { recursive := true }
    let scan := looped.report (some ⟨"a.A"⟩) options (some (.everyNth 2))
    let w := Walk.runIn looped.vanishing ⟨looped.vanishing 0, ⟨"a.A"⟩, options, none, false⟩ 2
    looped.resolvable.Finite ∧
    (∃ r, scan.result = .ok r ∧ Accounts looped ⟨"a.A"⟩ options (some (.everyNth 2)) scan.trace r ∧
      r.stats.expanded + r.stats.abandoned = 1 + r.found.size) ∧
    w.pending = [] ∧ w.failure = none ∧ w.stats.abandoned = 1 ∧
      ∃ s, Accounts s ⟨"a.A"⟩ options none w.trace ⟨w.found, w.stats⟩ := by
  intro options scan w
  obtain ⟨hends, haccounts⟩ := (report_accounts ⟨"a.A"⟩ options (some (.everyNth 2))).1 looped
  have he := hends (.inl looped.finite_resolvable)
  have hload : looped.load ⟨"a.A"⟩ = .ok (utf8Bytes "a/B") := rfl
  have hr : scan.result = .ok _ :=
    scanWith_of_load he hload _ _
  obtain ⟨haccounts, -⟩ := haccounts he _ hr
  have hdrained : w.pending = [] := by decide +kernel
  have hf : w.failure = none := by decide +kernel
  obtain ⟨s, -, hs⟩ := (report_accounts ⟨"a.A"⟩ options none).2 looped.vanishing false 2 hdrained hf
  exact ⟨looped.finite_resolvable, ⟨_, hr, haccounts, haccounts.unlimited rfl rfl⟩, hdrained, hf,
    by decide +kernel, s, hs⟩

end Source

end RefScan
