import Mathlib.Algebra.Ring.Nat
import RefScan.Proofs.Graph.Listing
import RefScan.Proofs.Scan.Reachable
import RefScan.Proofs.Universe
import RefScan.Proofs.Walk.Pool

/-!
# Scans of many roots

Each root has a walk of its own, and the walks share what answers their questions. If the answers do
not change, every order of the questions gives each root the result of its own scan, and the batch
is settled by the set of roots (`scanMany_delivered`). All that changes in a universe is its
counters, and these go up by what the scans add one by one.
-/

namespace RefScan

structure Trace.Counts (count : Trace → Nat) : Prop where
  nil : count {} = 0
  append : ∀ a b, count (a ++ b) = count a + count b

theorem Trace.counts_size : Counts size := ⟨rfl, size_append⟩

theorem Trace.counts_loads : Counts fun t => t.loads.length := ⟨rfl, fun _ _ => List.length_append⟩

theorem Trace.counts_resolutions : Counts fun t => t.resolutions.length :=
  ⟨rfl, fun _ _ => List.length_append⟩

/-- Scans that end by themselves have the questions of all of them to go, and no others. -/
theorem Pool.settles_begin {answer : (r : Request) → r.Answer} {qs : List ScanRequest}
    (he : ∀ q ∈ qs, Walk.Ends q) (ha : ∀ q ∈ qs, q.answers = answer) (x : σ) :
    ∃ rs, Settles answer ⟨qs.map .begin, x⟩ rs (qs.map fun q => q.entry (Walk.finished q)) ∧
      ∀ {count}, Trace.Counts count →
        count (.ofRequests rs) = (qs.map fun q => count (Walk.finished q).trace).sum := by
  induction qs with
  | nil => exact ⟨[], ⟨[], rfl, rfl, rfl⟩, fun hc => hc.nil⟩
  | cons q qs ih =>
    obtain ⟨rs, ⟨bs, hscans, rfl, hentries⟩, hcount⟩ := ih
      (fun q' hq => he q' (List.mem_cons_of_mem _ hq))
      (fun q' hq => ha q' (List.mem_cons_of_mem _ hq))
    obtain ⟨left, hcomes, htrace⟩ := (he q List.mem_cons_self).exists_comes
    rw [ha q List.mem_cons_self] at hcomes
    let b : Bound answer := ⟨.begin q, left, Walk.finished q, hcomes⟩
    refine ⟨left ++ bs.flatMap Bound.left, ⟨b :: bs, ?_, rfl, ?_⟩, fun {count} hc => ?_⟩
    · exact congrArg (.begin q :: ·) hscans
    · exact congrArg (q.entry (Walk.finished q) :: ·) hentries
    · rw [Trace.ofRequests_append, hc.append, hcount hc, ← htrace, List.map_cons, List.sum_cons]

namespace Source

variable {s : Source} {roots : List TypeName} {options : ScanOptions}
  {exclusion : Option Exclusion}

/-- One request for each different root, in name order. -/
def requests (s : Source) (roots : List TypeName) (options : ScanOptions)
    (exclusion : Option Exclusion) : List ScanRequest :=
  (Std.ExtTreeSet.ofList roots).toList.map fun root => ⟨s, root, options, exclusion, false⟩

def pool (s : Source) (roots : List TypeName) (options : ScanOptions)
    (exclusion : Option Exclusion) (x : σ) : Pool σ :=
  ⟨(s.requests roots options exclusion).map .begin, x⟩

theorem lists_roots (roots : List TypeName) :
    Graph.Lists Graph.ByName {t | t ∈ roots} (Std.ExtTreeSet.ofList roots).toList where
  ordered := (Std.ExtTreeSet.ofList roots).ordered_toList.imp Graph.byName_of_compare
  mem := by simp [Std.ExtTreeSet.mem_ofList]

theorem mem_requests {q : ScanRequest} (h : q ∈ s.requests roots options exclusion) :
    q.root ∈ roots ∧ q = ⟨s, q.root, options, exclusion, false⟩ := by
  obtain ⟨root, hroot, rfl⟩ := List.mem_map.mp h
  exact ⟨(lists_roots roots).mem.mp hroot, rfl⟩

theorem answers_of_mem_requests {q : ScanRequest} (h : q ∈ s.requests roots options exclusion) :
    q.answers = s.answers exclusion := by
  rw [(mem_requests h).2]
  rfl

theorem scanMany_eq (s : Source) (roots : List TypeName) (options : ScanOptions)
    (exclusion : Option Exclusion) :
    s.scanMany roots options exclusion =
      (s.requests roots options exclusion).map fun q => q.entry (Walk.finished q) := by
  rw [requests, scanMany, List.map_map]
  rfl

theorem map_fst_scanMany (s : Source) (roots : List TypeName) (options : ScanOptions)
    (exclusion : Option Exclusion) :
    (s.scanMany roots options exclusion).map Prod.fst = (Std.ExtTreeSet.ofList roots).toList := by
  rw [scanMany, List.map_map]
  exact List.map_id _

theorem scanMany_congr (s : Source) {roots roots' : List TypeName} (options : ScanOptions)
    (exclusion : Option Exclusion) (h : ∀ t, t ∈ roots' ↔ t ∈ roots) :
    s.scanMany roots' options exclusion = s.scanMany roots options exclusion := by
  have hset : {t | t ∈ roots'} = {t | t ∈ roots} := Set.ext h
  have hlist := Graph.Lists.unique Graph.ByName.asymm (hset ▸ lists_roots roots')
    (lists_roots roots)
  rw [scanMany, scanMany, hlist]

theorem scanMany_eq_run (n : Nat)
    (h : ∀ q ∈ s.requests roots options exclusion, (Walk.run q n (Walk.start q)).pending = []) :
    s.scanMany roots options exclusion =
      (s.requests roots options exclusion).map fun q =>
        q.entry (Walk.run q n (Walk.start q)) := by
  rw [scanMany_eq]
  refine List.map_congr_left fun q hq => ?_
  rw [Walk.finished_eq_run (h q hq)]

section

variable (he : ∀ root ∈ roots, s.Ends (some root) options exclusion)
include he

theorem settles_pool (x : σ) :
    ∃ rs, Pool.Settles (s.answers exclusion) (s.pool roots options exclusion x) rs
        (s.scanMany roots options exclusion) ∧
      ∀ {count}, Trace.Counts count → count (.ofRequests rs) =
        ((s.scanMany roots options exclusion).map fun entry => count entry.2.trace).sum := by
  have hends : ∀ q ∈ s.requests roots options exclusion, Walk.Ends q := by
    intro q hq
    obtain ⟨hroot, hq⟩ := mem_requests hq
    rw [hq]
    exact (Walk.ends_recorded_iff false).mpr (he q.root hroot)
  obtain ⟨rs, hs, hcount⟩ := Pool.settles_begin hends (fun _ => answers_of_mem_requests) x
  refine ⟨rs, s.scanMany_eq roots options exclusion ▸ hs, fun hc => ?_⟩
  rw [hcount hc, scanMany_eq, List.map_map]
  rfl

theorem delivers_pool {serve : Service σ} {I : σ → Prop}
    (ha : serve.AnswersBy (s.answers exclusion) I) (hI : I x) :
    let results := s.scanMany roots options exclusion
    Pool.Delivers serve (s.pool roots options exclusion x)
      (results.map fun entry => entry.2.trace.size).sum results := by
  obtain ⟨rs, hs, hcount⟩ := settles_pool he x
  have hdelivers := hs.delivers ha hI
  rwa [← Trace.size_ofRequests, hcount Trace.counts_size] at hdelivers

end

theorem entry_of_turns {serve : Service σ} {I : σ → Prop}
    (ha : serve.AnswersBy (s.answers exclusion) I) (hI : I x)
    (h : Steps (Pool.Turn serve) (s.pool roots options exclusion x) n pool') :
    pool'.scans.map (·.request.root) = (Std.ExtTreeSet.ofList roots).toList ∧
      ∀ scan ∈ pool'.scans, ∀ entry ∈ scan.entry?,
        s.Ends (some scan.request.root) options exclusion ∧
        entry = (scan.request.root, s.scan (some scan.request.root) options exclusion) := by
  have hbegin : ∀ scan ∈ (s.pool roots options exclusion x).scans,
      Pool.Sound (s.answers exclusion) scan := by
    intro scan hmem
    obtain ⟨q, -, rfl⟩ := List.mem_map.mp hmem
    exact Pool.sound_begin _ q
  obtain ⟨-, hrequests, hsound⟩ := Pool.run_sound ha hI hbegin h
  have hall : pool'.scans.map Scanning.request = s.requests roots options exclusion := by
    rw [hrequests, pool, List.map_map]
    exact List.map_id _
  constructor
  · have hroots := congrArg (List.map ScanRequest.root) hall
    rw [List.map_map, requests, List.map_map] at hroots
    exact hroots.trans (List.map_id _)
  · intro scan hmem entry hentry
    have hrequest : scan.request ∈ s.requests roots options exclusion :=
      hall ▸ List.mem_map_of_mem hmem
    have hscan := hsound scan hmem
    rw [← answers_of_mem_requests hrequest] at hscan
    obtain ⟨hends, rfl⟩ := hscan.entry_eq hentry
    rw [(mem_requests hrequest).2] at hends ⊢
    exact ⟨(Walk.ends_recorded_iff false).mp hends, rfl⟩

end Source

namespace Universe

/-- A universe at the service of many scans, with a predicate that it does not know of. -/
def serve (p : Option (TypeName → Bool)) : Service Universe
  | .load t, u => u.load t
  | .resolve name, u => u.resolve name
  | .exclude _ t, u => (p.any (· t), u)

def Recounted (u u' : Universe) : Prop :=
  ∃ loads resolutions, u' = { u with loads, resolutions }

theorem serve_answersBy (u : Universe) (p : Option (TypeName → Bool)) :
    (serve p).AnswersBy (u.source.answers (p.map .ofPredicate)) u.Recounted := by
  rintro r x ⟨loads, resolutions, rfl⟩
  cases r with
  | load t => exact ⟨rfl, loads + 1, resolutions, rfl⟩
  | resolve name => exact ⟨rfl, loads, resolutions + 1, rfl⟩
  | exclude earlier t => exact ⟨by cases p <;> rfl, loads, resolutions, rfl⟩

theorem asked_serve (p : Option (TypeName → Bool)) (r : Request) (u : Universe)
    (rs : List Request) :
    ((serve p r u).2).asked (.ofRequests rs) = u.asked (.ofRequests (r :: rs)) := by
  cases r <;> simp [serve, load, resolve, asked, Trace.ofRequests, List.filterMap_cons,
    Request.load?, Request.resolve?, Nat.add_comm, Nat.add_left_comm]

theorem asked_perm (u : Universe) (h : List.Perm rs rs') :
    u.asked (.ofRequests rs) = u.asked (.ofRequests rs') := by
  simp only [asked, Trace.ofRequests, (h.filterMap Request.load?).length_eq,
    (h.filterMap Request.resolve?).length_eq]

theorem ends_source (u : Universe) : u.source.Ends root options exclusion :=
  Source.ends_of_finite u.finite_resolvable

/-- After all turns the counters show what the scans add one by one. -/
theorem state_of_turns (u : Universe) (roots : List TypeName) (options : ScanOptions)
    (p : Option (TypeName → Bool)) {pool' : Pool Universe} :
    let results := u.source.scanMany roots options (p.map .ofPredicate)
    Steps (Pool.Turn (serve p)) (u.source.pool roots options (p.map .ofPredicate) u)
      (results.map fun entry => entry.2.trace.size).sum pool' →
    pool'.state = { u with
      loads := u.loads + (results.map fun entry => entry.2.trace.loads.length).sum
      resolutions :=
        u.resolutions + (results.map fun entry => entry.2.trace.resolutions.length).sum } := by
  intro results h
  have he : ∀ root ∈ roots, u.source.Ends (some root) options (p.map .ofPredicate) :=
    fun _ _ => u.ends_source
  obtain ⟨rs, hs, hcount⟩ := Source.settles_pool he u
  obtain ⟨-, rs', hleft, haccount, -⟩ := Pool.run_settles (fun u rs => u.asked (.ofRequests rs))
    (asked_serve p) (fun u _ _ hperm => u.asked_perm hperm) (u.serve_answersBy p)
    ⟨u.loads, u.resolutions, rfl⟩ hs h
  have hsize : (results.map fun entry => entry.2.trace.size).sum = rs.length := by
    rw [← Trace.size_ofRequests, hcount Trace.counts_size]
  obtain rfl : rs' = [] := List.eq_nil_of_length_eq_zero (by omega)
  refine Eq.trans haccount ?_
  have hloads := hcount Trace.counts_loads
  have hresolutions := hcount Trace.counts_resolutions
  simp only [asked, results] at hloads hresolutions ⊢
  rw [hloads, hresolutions]
  rfl

end Universe

/-- A batch has one result for each different root, in the order of names, and each is that of the
root's own scan; so only the set of roots counts. Walks share a service with fixed answers. Whatever
the order of their questions, one that is over has the result of its own scan, and if all of these
end, so does the batch, with these results. A universe then has counted the questions of all
scans. -/
theorem Source.scanMany_delivered (roots : List TypeName) (options : ScanOptions)
    (p : Option (TypeName → Bool)) :
    let exclusion := p.map Exclusion.ofPredicate
    (∀ s : Source,
      let results := s.scanMany roots options exclusion
      Graph.Lists Graph.ByName {t | t ∈ roots} (results.map Prod.fst) ∧
      (∀ entry ∈ results, entry.2 = s.scan (some entry.1) options exclusion) ∧
      (∀ roots', (∀ t, t ∈ roots' ↔ t ∈ roots) →
        s.scanMany roots' options exclusion = results) ∧
      (s.resolvable.Finite ∨ options.Bounded →
        ∀ root ∈ roots, s.Ends (some root) options exclusion) ∧
      ∀ (σ : Type) (serve : Service σ) (I : σ → Prop) (x : σ),
        serve.AnswersBy (s.answers exclusion) I → I x →
        let pool := s.pool roots options exclusion x
        (∀ n pool', Steps (Pool.Turn serve) pool n pool' →
          pool'.scans.map (·.request.root) = results.map Prod.fst ∧
          ∀ scan ∈ pool'.scans, ∀ entry ∈ scan.entry?,
            s.Ends (some scan.request.root) options exclusion ∧
            entry = (scan.request.root, s.scan (some scan.request.root) options exclusion)) ∧
        ((∀ root ∈ roots, s.Ends (some root) options exclusion) →
          pool.Delivers serve (results.map fun entry => entry.2.trace.size).sum results)) ∧
    ∀ u : Universe,
      let results := u.source.scanMany roots options exclusion
      let turns := (results.map fun entry => entry.2.trace.size).sum
      let pool := u.source.pool roots options exclusion u
      pool.Delivers (Universe.serve p) turns results ∧
      ∀ pool', Steps (Pool.Turn (Universe.serve p)) pool turns pool' →
        pool'.state = { u with
          loads := u.loads + (results.map fun entry => entry.2.trace.loads.length).sum
          resolutions :=
            u.resolutions + (results.map fun entry => entry.2.trace.resolutions.length).sum } := by
  intro exclusion
  constructor
  · intro s results
    refine ⟨?_, ?_, fun roots' h => s.scanMany_congr options _ h,
      fun h root _ => ends_of_finite_or_bounded h, fun σ serve I x ha hI => ⟨?_, ?_⟩⟩
    · exact s.map_fst_scanMany roots options _ ▸ lists_roots roots
    · intro entry hentry
      obtain ⟨root, -, rfl⟩ := List.mem_map.mp hentry
      rfl
    · intro n pool' h
      rw [map_fst_scanMany]
      exact entry_of_turns ha hI h
    · exact fun he => delivers_pool he ha hI
  · intro u results turns pool
    exact ⟨delivers_pool (fun root _ => u.ends_source) (u.serve_answersBy p)
      ⟨u.loads, u.resolutions, rfl⟩, fun pool' h => u.state_of_turns roots options p h⟩

theorem Source.scanMany_delivered_mutual :
    let u := Universe.after {} [.insertBytes "a.A" (utf8Bytes "a/B;a/C"),
      .insertBytes "a.B" (utf8Bytes "a/A"), .insertStub "a.C"]
    let roots : List TypeName := [⟨"a.B"⟩, ⟨"a.X"⟩, ⟨"a.A"⟩, ⟨"a.B"⟩]
    let options : ScanOptions := { recursive := true }
    let exclusion : Option Exclusion := some (.ofPredicate looped.rejects)
    let serve := Universe.serve (some looped.rejects)
    let results := u.source.scanMany roots options exclusion
    results.map (fun entry => (entry.1.name, entry.2.result.isOk)) =
      [("a.A", true), ("a.B", true), ("a.X", false)] ∧
    u.source.scanMany [⟨"a.A"⟩, ⟨"a.X"⟩, ⟨"a.B"⟩] options exclusion = results ∧
    serve.AnswersBy (u.source.answers exclusion) u.Recounted ∧
    ∃ pool', Steps (Pool.Turn serve) (u.source.pool roots options exclusion u) 19 pool' ∧
      pool'.scans.map Scanning.entry? = results.map some ∧
      pool'.state.loads = 7 ∧ pool'.state.resolutions = 6 := by
  intro u roots options exclusion serve results
  obtain ⟨hsource, huniverse⟩ := scanMany_delivered roots options (some looped.rejects)
  obtain ⟨-, -, hset, hends, hservice⟩ := hsource u.source
  have hroots (t : TypeName) : t ∈ [⟨"a.A"⟩, ⟨"a.X"⟩, ⟨"a.B"⟩] ↔ t ∈ roots := by
    simp only [roots, List.mem_cons, List.not_mem_nil, or_false]
    grind
  have hanswers := u.serve_answersBy (some looped.rejects)
  have hdelivers := (hservice Universe serve u.Recounted u hanswers
    ⟨u.loads, u.resolutions, rfl⟩).2 (hends (.inl u.finite_resolvable))
  have hresults : results = _ := scanMany_eq_run 3 (by decide +kernel)
  have hturns : (results.map fun entry => entry.2.trace.size).sum = 19 := by
    rw [hresults]
    decide +kernel
  obtain ⟨pool', hrun⟩ := hdelivers.ends
  have hstate := (huniverse u).2 pool' hrun
  have hloads : (results.map fun entry => entry.2.trace.loads.length).sum = 7 := by
    rw [hresults]
    decide +kernel
  have hresolutions : (results.map fun entry => entry.2.trace.resolutions.length).sum = 6 := by
    rw [hresults]
    decide +kernel
  refine ⟨?_, hset _ hroots, hanswers, pool', hturns ▸ hrun, hdelivers.ended hrun, ?_, ?_⟩
  · rw [hresults]
    decide +kernel
  · rw [hstate]
    exact (Nat.zero_add _).trans hloads
  · rw [hstate]
    exact (Nat.zero_add _).trans hresolutions

end RefScan
