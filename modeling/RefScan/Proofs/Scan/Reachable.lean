import RefScan.Proofs.Walk.Forget
import RefScan.Scan.Report

/-!
# A recursive scan finds what can be reached

Without a depth limit the pending types of a walk never run behind: a visited type is loaded or
waits. When nothing waits any more, the loaded types are closed under references, so the found
types are those that references lead to from the root (`report_found_iff_reachable`).
-/

namespace RefScan

namespace Walk

variable {q : ScanRequest} {w w' : Walk}

theorem Verdict.of_predicate {p : Option (TypeName → Bool)}
    (h : Verdict (p.map .ofPredicate) asked t v) : v = p.any (· t) := by
  cases p with
  | none => exact h
  | some p =>
    obtain ⟨earlier, -, hv⟩ := h
    exact hv.symm

/-- For loaded types the walk's verdicts say the same as any account of them. -/
theorem Invariant.accepts_iff_refersTo (hi : Invariant q w) {rejected : TypeName → Prop}
    (hr : ∀ {t : TypeName} {v : Bool}, w.verdicts[t]? = some v → (v = true ↔ rejected t))
    (hu : u ∈ w.loads) :
    Accepts q w u t ↔ q.source.RefersTo q.options.encoding rejected u t := by
  unfold Accepts Source.RefersTo
  refine and_congr_right fun hm => and_congr_right fun hne => ?_
  have hasked : t ∈ w.verdicts := hi.asked.mpr ⟨u, hu, hm, hne⟩
  obtain ⟨v, hv⟩ := exists_verdict hasked
  rw [hv, ← hr hv, Option.some.injEq, Bool.not_eq_true]

theorem Invariant.refers_iff (hi : Invariant q w) {rejected : TypeName → Prop}
    (hr : ∀ {t : TypeName} {v : Bool}, w.verdicts[t]? = some v → (v = true ↔ rejected t)) :
    Refers q w u t ↔ u ∈ w.loads ∧ q.source.RefersTo q.options.encoding rejected u t :=
  and_congr_right fun hu => hi.accepts_iff_refersTo hr hu

theorem Invariant.refers_iff_of_predicate (hi : Invariant q w) {p : Option (TypeName → Bool)}
    (hp : q.exclusion = p.map .ofPredicate) :
    Refers q w u t ↔
      u ∈ w.loads ∧ q.source.RefersTo q.options.encoding (fun t => p.any (· t)) u t := by
  refine hi.refers_iff fun {t v} hv => ?_
  have hverdict := hi.memo.verdicts hv
  rw [hp] at hverdict
  rw [hverdict.of_predicate]

theorem Invariant.visited_of_refers (hi : Invariant q w) (hrec : q.options.recursive = true)
    (h : Refers q w u t) : t ∈ w.visited := by
  by_cases ht : t = q.root
  · exact hi.seen.visited.mpr (.inl ht)
  · exact hi.seen.visited.mpr (.inr ⟨hrec, hi.found.mpr ⟨ht, u, h⟩⟩)

theorem Stepped.visited_cases (h : Stepped q unit depth rest next w w')
    (hs : Seen q w.visited w.found) (ht : t ∈ w'.visited) :
    t ∈ w.visited ∨ (Accepts q w' unit t ∧ q.options.recursive = true) := by
  rcases h.seen.visited.mp ht with rfl | ⟨hrec, hf⟩
  · exact .inl (hs.visited.mpr (.inl rfl))
  · rcases h.found.mp hf with ⟨ha, -⟩ | hf
    · exact .inr ⟨ha, hrec⟩
    · exact .inl (hs.visited.mpr (.inr ⟨hrec, hf⟩))

theorem Stepped.keeps (h : Stepped q unit depth rest next w w')
    (hp : w.pending = (unit, depth) :: rest)
    (ht : t ∈ w.loads ∨ t ∈ w.pending.map Prod.fst) :
    t ∈ w'.loads ∨ t ∈ w'.pending.map Prod.fst := by
  rw [h.loads, h.map_pending.mem_iff, List.mem_append, List.mem_cons]
  rcases ht with hl | hq
  · exact .inl (.inr hl)
  · rw [hp, List.map_cons, List.mem_cons] at hq
    rcases hq with rfl | hq
    · exact .inl (.inl rfl)
    · exact .inr (.inr hq)

theorem Stepped.mem_pending_of_new (h : Stepped q unit depth rest next w w')
    (he : q.options.expandsAt (depth + 1) = true) (ha : Accepts q w' unit t)
    (hnew : t ∉ w.visited) : t ∈ w'.pending.map Prod.fst := by
  rw [h.map_pending.mem_iff, List.mem_append]
  exact .inl (List.mem_map.mpr ⟨(t, depth + 1), h.mem_next.mpr ⟨rfl, he, ha, hnew⟩, rfl⟩)

theorem loads_of_visited_of_unlimited (he : Ends q) (hmax : q.options.maxDepth = none)
    (ht : t ∈ (finished q).visited) : t ∈ (finished q).loads := by
  have hcover : ∀ t ∈ (finished q).visited,
      t ∈ (finished q).loads ∨ t ∈ (finished q).pending.map Prod.fst := by
    refine finished_induction he (P := fun w => ∀ t ∈ w.visited,
      t ∈ w.loads ∨ t ∈ w.pending.map Prod.fst) (by simp [start]) ?_
    intro w w' unit depth rest next hi hw hp h t ht
    by_cases hold : t ∈ w.visited
    · exact h.keeps hp (hw t hold)
    · obtain ⟨ha, hrec⟩ := (h.visited_cases hi.seen ht).resolve_left hold
      have hexpands : q.options.expandsAt (depth + 1) = true := by
        simp [ScanOptions.expandsAt, hrec, hmax]
      exact .inr (h.mem_pending_of_new hexpands ha hold)
  simpa [finished_drained he] using hcover t ht

theorem mem_found_finished_iff (he : Ends q) (hrec : q.options.recursive = true)
    (hmax : q.options.maxDepth = none) {p : Option (TypeName → Bool)}
    (hp : q.exclusion = p.map .ofPredicate) :
    t ∈ (finished q).found ↔ t ≠ q.root ∧ Relation.TransGen
      (q.source.RefersTo q.options.encoding fun t => p.any (· t)) q.root t := by
  have hi := finished_invariant he
  constructor
  · intro ht
    refine ⟨hi.seen.found ht, ?_⟩
    exact Relation.TransGen.mono (fun u t h => ((hi.refers_iff_of_predicate hp).mp h).2) _ _
      (hi.reachable ht)
  · rintro ⟨hne, hreach⟩
    have hvisited : t ∈ (finished q).visited := by
      clear hne
      induction hreach with
      | single hr =>
        exact hi.visited_of_refers hrec
          ((hi.refers_iff_of_predicate hp).mpr ⟨root_mem_loads_finished he, hr⟩)
      | tail _ hr ih =>
        exact hi.visited_of_refers hrec
          ((hi.refers_iff_of_predicate hp).mpr ⟨loads_of_visited_of_unlimited he hmax ih, hr⟩)
    exact ((hi.seen.visited.mp hvisited).resolve_left hne).2

end Walk

namespace Source

theorem scanWith_of_load {s : Source} {options : ScanOptions} {exclusion : Option Exclusion}
    {recorded : Bool} (he : s.Ends (some root) options exclusion) (h : s.load root = .ok bytes)
    (nothing : α) (view : Walk → α) :
    (s.scanWith (some root) options exclusion recorded nothing view).result =
      .ok (view (Walk.finished ⟨s, root, options, exclusion, recorded⟩)) := by
  simp only [scanWith, Walk.outcome]
  rw [Walk.finished_failure_of_load ((Walk.ends_recorded_iff recorded).mpr he) h]

theorem scanWith_eq_run {s : Source} {options : ScanOptions} {exclusion : Option Exclusion}
    {recorded : Bool} (n : Nat) (nothing : α) (view : Walk → α) :
    let q : ScanRequest := ⟨s, root, options, exclusion, recorded⟩
    (Walk.run q n (Walk.start q)).pending = [] →
      s.scanWith (some root) options exclusion recorded nothing view =
        (Walk.run q n (Walk.start q)).outcome view := by
  intro q h
  rw [← Walk.finished_eq_run h]
  rfl

/-- If names resolve to finitely many types, a recursive scan without depth limit ends. The found
types are then those that one or more references lead to, the root apart. A type without bytes
refers to nothing and may be found. -/
theorem report_found_iff_reachable (s : Source) (hs : s.resolvable.Finite) (root : TypeName)
    (encoding : Encoding) (p : Option (TypeName → Bool)) {bytes : Bytes}
    (h : s.load root = .ok bytes) :
    let options : ScanOptions := { encoding, recursive := true }
    s.Ends (some root) options (p.map .ofPredicate) ∧
    ∃ r, (s.report (some root) options (p.map .ofPredicate)).result = .ok r ∧
      ∀ t, t ∈ r.found ↔ t ≠ root ∧
        Relation.TransGen (s.RefersTo encoding fun t => p.any (· t)) root t := by
  intro options
  have he : Walk.Ends ⟨s, root, options, p.map .ofPredicate, false⟩ := Walk.ends_of_finite hs
  refine ⟨ends_of_finite hs, _, scanWith_of_load (ends_of_finite hs) h _ _, fun t => ?_⟩
  exact Walk.mem_found_finished_iff he rfl rfl rfl

-- ---------------------------------------------------------------------------
-- A small source
-- ---------------------------------------------------------------------------

/-- Two types that refer to each other. The second also names two without bytes, one of them by a
name that is not its own. -/
def looped : Source where
  load
    | ⟨"a.A"⟩ => .ok (utf8Bytes "a/B")
    | ⟨"a.B"⟩ => .ok (utf8Bytes "a/A;a/D;x/Y")
    | t => .error (.notFound t.name)
  resolve
    | "a.A" => .ok ⟨"a.A"⟩
    | "a.B" => .ok ⟨"a.B"⟩
    | "a.D" => .ok ⟨"a.D"⟩
    | "x.Y" => .ok ⟨"a.C"⟩
    | name => .error (.notFound name)

def looped.types : Finset TypeName := {⟨"a.A"⟩, ⟨"a.B"⟩, ⟨"a.C"⟩, ⟨"a.D"⟩}

theorem looped.resolvable_subset : looped.resolvable ⊆ ↑looped.types := by
  rintro t ⟨name, hname⟩
  unfold looped at hname
  simp only at hname
  split at hname <;> simp_all [looped.types]

theorem looped.finite_resolvable : looped.resolvable.Finite :=
  looped.types.finite_toSet.subset resolvable_subset

def looped.rejects (t : TypeName) : Bool := t.name == "a.D"

theorem looped.mentions_first : looped.Mentions .utf8 ⟨"a.A"⟩ t ↔ t = ⟨"a.B"⟩ := by
  rw [mentions_iff_of_typeNames ["a.B"] rfl (by decide)]
  simp [show looped.resolve "a.B" = .ok ⟨"a.B"⟩ from rfl, @eq_comm _ t]

theorem looped.mentions_second :
    looped.Mentions .utf8 ⟨"a.B"⟩ t ↔ t = ⟨"a.A"⟩ ∨ t = ⟨"a.D"⟩ ∨ t = ⟨"a.C"⟩ := by
  rw [mentions_iff_of_typeNames ["a.A", "a.D", "x.Y"] rfl (by decide)]
  simp [show looped.resolve "a.A" = .ok ⟨"a.A"⟩ from rfl,
    show looped.resolve "a.D" = .ok ⟨"a.D"⟩ from rfl,
    show looped.resolve "x.Y" = .ok ⟨"a.C"⟩ from rfl, @eq_comm _ t]

theorem looped.refersTo_second : looped.RefersTo .utf8 (looped.rejects ·) ⟨"a.A"⟩ ⟨"a.B"⟩ :=
  ⟨looped.mentions_first.mpr rfl, by decide, by decide⟩

theorem looped.refersTo_third : looped.RefersTo .utf8 (looped.rejects ·) ⟨"a.B"⟩ ⟨"a.C"⟩ :=
  ⟨looped.mentions_second.mpr (.inr (.inr rfl)), by decide, by decide⟩

theorem report_found_looped :
    looped.resolvable.Finite ∧ looped.load ⟨"a.A"⟩ = .ok (utf8Bytes "a/B") ∧
    ∃ r, (looped.report (some ⟨"a.A"⟩) { encoding := .utf8, recursive := true }
        (some (.ofPredicate looped.rejects))).result = .ok r ∧
      ⟨"a.C"⟩ ∈ r.found ∧ ⟨"a.A"⟩ ∉ r.found ∧ ⟨"a.D"⟩ ∉ r.found := by
  obtain ⟨-, r, hr, hfound⟩ := report_found_iff_reachable looped looped.finite_resolvable ⟨"a.A"⟩
    .utf8 (some looped.rejects) rfl
  refine ⟨looped.finite_resolvable, rfl, r, hr, (hfound _).mpr ⟨by decide, ?_⟩,
    fun h => ((hfound _).mp h).1 rfl, fun h => ?_⟩
  · exact .tail (.single looped.refersTo_second) looped.refersTo_third
  · obtain ⟨_, -, -, -, hkept⟩ := Relation.TransGen.tail'_iff.mp ((hfound _).mp h).2
    exact hkept (by decide)

end Source

end RefScan
