import RefScan.Proofs.Steps
import RefScan.Proofs.Walk.Invariant

/-!
# Walks that come to an end

A walk loads no type twice, so it ends if it has finitely many types to load
(`ends_of_loads_finite`). That is so if names resolve to finitely many types, and also if the walk
goes only so deep, whatever the source: one type mentions finitely many others.
-/

namespace RefScan

/-- A scan with these options stops at some distance from its root. -/
def ScanOptions.Bounded (o : ScanOptions) : Prop := o.recursive = true → o.maxDepth.isSome = true

instance (o : ScanOptions) : Decidable o.Bounded := inferInstanceAs (Decidable (_ → _))

/-- The root is expanded whatever the options, other types only as far away as these allow. -/
def ScanOptions.Reaches (o : ScanOptions) (n : Nat) : Prop := n = 0 ∨ o.expandsAt n = true

theorem ScanOptions.Bounded.exists_limit {o : ScanOptions} (h : o.Bounded) :
    ∃ d, ∀ n, o.Reaches n → n ≤ d := by
  cases hmax : o.maxDepth with
  | none =>
    have hrec : o.recursive = false := by
      cases hrec : o.recursive with
      | false => rfl
      | true => simpa [hmax] using h hrec
    exact ⟨0, fun n hn => by simpa [Reaches, expandsAt, hrec] using hn⟩
  | some d =>
    refine ⟨d, fun n hn => ?_⟩
    rcases hn with rfl | hn
    · exact Nat.zero_le d
    · simp only [expandsAt, hmax, Option.all_some, Bool.and_eq_true, decide_eq_true_eq] at hn
      exact hn.2

def Source.Ends (s : Source) (root : Option TypeName) (options : ScanOptions)
    (exclusion : Option Exclusion) : Prop :=
  ∀ r ∈ root, Walk.Ends ⟨s, r, options, exclusion, false⟩

namespace Walk

variable {q : ScanRequest} {w w' : Walk}

theorem ends_of_loads_finite {F : Set TypeName} (hF : F.Finite)
    (h : ∀ n, ∀ t ∈ (run q n (start q)).loads, t ∈ F) : Ends q := by
  classical
  by_contra hnever
  -- after more steps than `F` has types, one of them must have been loaded twice
  let n := hF.toFinset.card + 1
  have hlength : (run q n (start q)).loads.length = n := by
    have hlength := (run_length (invariant_start q) n).resolve_left fun hd => hnever ⟨n, hd⟩
    simpa [start] using hlength
  have hsub : (run q n (start q)).loads.toFinset ⊆ hF.toFinset := fun t ht =>
    hF.mem_toFinset.mpr (h n t (List.mem_toFinset.mp ht))
  have hcard := Finset.card_le_card hsub
  rw [List.toFinset_card_of_nodup (run_invariant q n).nodup_loads, hlength] at hcard
  omega

/-- Pending and loaded types are some steps of `r` away from the root, the pending ones as many as
their depth says. -/
structure Placed (q : ScanRequest) (r : TypeName → TypeName → Prop) (w : Walk) : Prop where
  pending : ∀ {t n}, (t, n) ∈ w.pending → q.options.Reaches n ∧ Steps r q.root n t
  loads : ∀ {t}, t ∈ w.loads → ∃ n, q.options.Reaches n ∧ Steps r q.root n t

theorem placed_start (q : ScanRequest) (r : TypeName → TypeName → Prop) :
    Placed q r (start q) where
  pending ht := by
    cases List.mem_singleton.mp ht
    exact ⟨.inl rfl, .zero⟩
  loads ht := absurd ht List.not_mem_nil

theorem Placed.of_stepped (h : Placed q r w) (hp : w.pending = (unit, depth) :: rest)
    (hs : Stepped q unit depth rest next w w') (hr : ∀ {t}, Accepts q w' unit t → r unit t) :
    Placed q r w' := by
  have hunit : q.options.Reaches depth ∧ Steps r q.root depth unit :=
    h.pending (hp ▸ List.mem_cons_self)
  constructor
  case pending =>
    intro t n ht
    rw [hs.pending, (enqueue_perm q next rest).mem_iff, List.mem_append] at ht
    rcases ht with hnext | hrest
    · obtain ⟨rfl, hexpands, ha, -⟩ := hs.mem_next.mp hnext
      exact ⟨.inr hexpands, .succ hunit.2 (hr ha)⟩
    · exact h.pending (hp ▸ List.mem_cons_of_mem _ hrest)
  case loads =>
    intro t ht
    rw [hs.loads] at ht
    rcases List.mem_cons.mp ht with rfl | ht
    · exact ⟨depth, hunit⟩
    · exact h.loads ht

theorem steps_of_mem_loads_run {r : TypeName → TypeName → Prop}
    (hr : ∀ {w u t}, Invariant q w → Refers q w u t → r u t) (n : Nat)
    (ht : t ∈ (run q n (start q)).loads) : ∃ k, q.options.Reaches k ∧ Steps r q.root k t := by
  refine (run_induction (placed_start q r) ?_ n).2.loads ht
  intro w w' unit depth rest next hi hw hp hs
  refine hw.of_stepped hp hs fun ha => ?_
  exact hr (hi.of_stepped hp hs) ((hi.refers_step hs).mpr (.inl ⟨rfl, ha⟩))

theorem ends_of_finite (h : q.source.resolvable.Finite) : Ends q := by
  refine ends_of_loads_finite (h.insert q.root) fun n t ht => ?_
  have hi := run_invariant q n
  refine (hi.seen.visited.mp (hi.visited (.inl ht))).imp id fun ⟨_, hfound⟩ => ?_
  obtain ⟨-, u, hu⟩ := hi.found.mp hfound
  exact hu.2.1.mem_resolvable

theorem ends_of_bounded (h : q.options.Bounded) : Ends q := by
  obtain ⟨d, hd⟩ := h.exists_limit
  have hfinite (k : Nat) := Steps.finite (q.source.finite_mentions q.options.encoding) q.root k
  refine ends_of_loads_finite ((Set.finite_le_nat d).biUnion fun k _ => hfinite k) fun n t ht => ?_
  obtain ⟨k, hk, hsteps⟩ := steps_of_mem_loads_run (fun _ h => h.2.1) n ht
  exact Set.mem_biUnion (hd k hk) hsteps

end Walk

namespace Source

variable {s : Source} {root : Option TypeName} {options : ScanOptions}
  {exclusion : Option Exclusion}

theorem ends_of_finite (h : s.resolvable.Finite) : s.Ends root options exclusion :=
  fun _ _ => Walk.ends_of_finite h

theorem ends_of_bounded (h : options.Bounded) : s.Ends root options exclusion :=
  fun _ _ => Walk.ends_of_bounded h

theorem ends_of_finite_or_bounded (h : s.resolvable.Finite ∨ options.Bounded) :
    s.Ends root options exclusion :=
  h.elim ends_of_finite ends_of_bounded

end Source

end RefScan
