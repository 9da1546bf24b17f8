import RefScan.Proofs.Scan.Order

/-!
# Scans with more and with fewer references

Whatever its options, a scan loads its root and the types that references lead to in a number of
steps at which it still expands (`mem_loads_finished_iff_steps`). Where there are more references,
there are more ways. So one scan has all that another one has if it has at least its references
(`Within`), and if it ends so does the other: that the two take their ways in another order, or come
upon a type at another depth, makes no difference.
-/

namespace RefScan

namespace Walk

variable {q q' : ScanRequest} {p p' : Option (TypeName → Bool)} {g g' : Graph}

theorem mem_loads_finished_iff_steps (he : Ends q) (hp : q.exclusion = p.map .ofPredicate) :
    t ∈ (finished q).loads ↔ ∃ n, q.options.Reaches n ∧
      Steps (q.source.RefersTo q.options.encoding fun t => p.any (· t)) q.root n t := by
  cases hrec : q.options.recursive with
  | false =>
    have hnever (n : Nat) : q.options.expandsAt n = false := by simp [ScanOptions.expandsAt, hrec]
    rw [loads_finished_of_not_expandsAt (hnever 1), List.mem_singleton]
    constructor
    · rintro rfl
      exact ⟨0, .inl rfl, .zero⟩
    · rintro ⟨n, rfl | hn, hs⟩
      · cases hs
        rfl
      · simp [hnever] at hn
  | true =>
    cases hmax : q.options.maxDepth with
    | none =>
      rw [mem_loads_finished_iff_reachable he hrec hmax hp]
      constructor
      · intro hreach
        obtain ⟨n, hs⟩ := exists_steps_of_reflTransGen hreach
        exact ⟨n, .inr (by simp [ScanOptions.expandsAt, hrec, hmax]), hs⟩
      · rintro ⟨n, -, hs⟩
        exact hs.reflTransGen
    | some d =>
      have hwithin (n : Nat) : q.options.Reaches n ↔ n ≤ d := by
        simp only [ScanOptions.Reaches, ScanOptions.expandsAt, hrec, hmax, Option.all_some,
          Bool.true_and, decide_eq_true_eq]
        omega
      rw [mem_loads_finished_iff_distance hrec hmax hp]
      constructor
      · rintro ⟨n, hn, hd⟩
        exact ⟨n, (hwithin n).mpr hn, hd.1⟩
      · rintro ⟨n, hn, hs⟩
        obtain ⟨m, hm, hd⟩ := IsDistance.exists_le hs
        exact ⟨m, hm.trans ((hwithin n).mp hn), hd⟩

/-- The references of `q`, by its predicate `p`, are references of `q'` by its predicate `p'`. -/
structure Within (q q' : ScanRequest) (p p' : Option (TypeName → Bool)) : Prop where
  root : q'.root = q.root
  options : q'.options = q.options
  exclusion : q.exclusion = p.map .ofPredicate
  exclusion' : q'.exclusion = p'.map .ofPredicate
  refersTo : ∀ {u t}, q.source.RefersTo q.options.encoding (fun t => p.any (· t)) u t →
    q'.source.RefersTo q.options.encoding (fun t => p'.any (· t)) u t

namespace Within

theorem steps (h : Within q q' p p')
    (hs : Steps (q.source.RefersTo q.options.encoding fun t => p.any (· t)) q.root n t) :
    Steps (q'.source.RefersTo q'.options.encoding fun t => p'.any (· t)) q'.root n t := by
  rw [h.root, h.options]
  exact hs.mono h.refersTo

theorem mem_loads_of_run (h : Within q q' p p') (he : Ends q') (n : Nat)
    (ht : t ∈ (run q n (start q)).loads) : t ∈ (finished q').loads := by
  obtain ⟨k, hk, hs⟩ := steps_of_mem_loads_run
    (fun hi hr => ((hi.refers_iff_of_predicate h.exclusion).mp hr).2) n ht
  exact (mem_loads_finished_iff_steps he h.exclusion').mpr ⟨k, h.options ▸ hk, h.steps hs⟩

theorem ends (h : Within q q' p p') (he : Ends q') : Ends q :=
  ends_of_loads_finite (finished q').loads.finite_toSet fun n _ ht => h.mem_loads_of_run he n ht

theorem loads (h : Within q q' p p') (he : Ends q') (ht : t ∈ (finished q).loads) :
    t ∈ (finished q').loads := by
  obtain ⟨n, hn⟩ := (h.ends he).exists_run
  exact h.mem_loads_of_run he (n + 1) (hn ▸ ht)

theorem refers (h : Within q q' p p') (he : Ends q') (hr : Refers q (finished q) u t) :
    Refers q' (finished q') u t := by
  have hi := finished_invariant (h.ends he)
  obtain ⟨hu, hr⟩ := (hi.refers_iff_of_predicate h.exclusion).mp hr
  refine ((finished_invariant he).refers_iff_of_predicate h.exclusion').mpr ⟨h.loads he hu, ?_⟩
  rw [h.options]
  exact h.refersTo hr

theorem found (h : Within q q' p p') (he : Ends q') (ht : t ∈ (finished q).found) :
    t ∈ (finished q').found := by
  obtain ⟨hne, u, hr⟩ := (finished_invariant (h.ends he)).found.mp ht
  exact (finished_invariant he).found.mpr ⟨h.root ▸ hne, u, h.refers he hr⟩

theorem edges (h : Within q q' p p') (he : Ends q') (hg : Records q (finished q) g)
    (hg' : Records q' (finished q') g') : g.edges ⊆ g'.edges := by
  rintro ⟨u, t⟩ hr
  exact hg'.mem_edges_iff.mpr (h.refers he (hg.mem_edges_iff.mp hr))

end Within

end Walk

end RefScan
